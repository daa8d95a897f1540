import Catlib.Alloc.Tags
import Catlib.Bits.Archops

/-! # The two-level segregated fit heap of dynmem.c

The record is that of the 64-bit configuration. Its lists are in the word memory; its bitmaps and
its levels are fields. `ASSERT` does nothing at debug level 0. A shift of an int that overflows is
no result, nor is a failed assertion of a list function. A `size_t` has 64 bits.
-/
namespace Catlib.Alloc

open Function

/-- `struct tlsf_l2`. -/
structure TlsfL2 where
  bm : ℕ
  nblists : ℕ
  blists : ℕ

/-- `struct tlsf` with its memory; `pools` is the address of the head of its pools. -/
structure Tlsf where
  mem : Mem
  pools : ℕ
  l1bm : ℕ
  l1 : ℕ → TlsfL2

def lg2Unitsize : ℕ := 3
def szBits : ℕ := 64
def lg2Alim : ℕ := 63
def l2Len : ℕ := 6
def numl2 : ℕ := lg2Alim - lg2Unitsize
def fullbllen : ℕ := 1 <<< l2Len
def numsmall : ℕ := l2Len
def numheads : ℕ := (numl2 - l2Len) * fullbllen + (1 <<< numsmall - 1)

/-- `TLSF_ALIM`. -/
def alim : ℕ := 1 <<< lg2Alim

def tlsfMinsz : ℕ := (24 + 2 * unitsize - 1) / unitsize * unitsize

/-- `sizeof(union tlsfpool_u)`. -/
def tlsfPoolSize : ℕ := 40

/-- The offset of `tlsf_lists`. -/
def listsOffset : ℕ := 16 + 8 + 24 * numl2

/-- The loop of `tlsf_init` over the levels: `listp`, and the levels so far. -/
def initLevels (lists : ℕ) : ℕ → ℕ × (ℕ → TlsfL2)
  | 0 => (lists,fun _ => ⟨0,0,0⟩)
  | i + 1 =>
    let r := initLevels lists i
    let nblists := if i < numsmall then 1 <<< i else fullbllen
    (r.1 + 16 * nblists,update r.2 i ⟨0,nblists,r.1⟩)

/-- `tlsf_init` of the record at `tlsf`. -/
def tlsfInit (m : Mem) (tlsf : ℕ) : Tlsf :=
  let lists := tlsf + listsOffset
  let m := lInit m tlsf
  let m := (List.range numheads).foldl (fun m i => lInit m (lists + 16 * i)) m
  ⟨m,tlsf,0,(initLevels lists numl2).2⟩

/-! ## Size classes -/

/-- `1 << k` in an int. -/
def intShl (k : ℕ) : Option ℕ := if k < 31 then some (1 <<< k) else none

/-- A value that an int is to hold. -/
def toInt (v : ℕ) : Option ℕ := if v < 2 ^ 31 then some v else none

/-- A difference in a `size_t`. -/
def diff (a b : ℕ) : ℕ := (a + 2 ^ 64 - b) % 2 ^ 64

def calcTlsfIndices (len : ℕ) : Option ℕ :=
  let n := Bits.nlz64 len
  -- a level below zero cannot be shifted
  if szBits - 1 - lg2Unitsize < n then none
  else
    let i := szBits - 1 - lg2Unitsize - n
    (intShl (i + lg2Unitsize)).bind fun p =>
      (toInt (diff len p)).map fun j =>
        let j := if len < fullbllen * unitsize then j / unitsize else j >>> (i - (l2Len - lg2Unitsize))
        i <<< 8 + j

def roundNextTlsfSize (t : Tlsf) (amt idx : ℕ) : Option ℤ :=
  let l1 := idx >>> 8
  let l2 := idx &&& 0xFF
  if l1 ≤ l2Len then some idx
  else
    (intShl (l1 + lg2Unitsize)).map fun p =>
      let bktlen := p + p / fullbllen * l2
      if amt ≤ bktlen then idx
      else
        let l2 := l2 + 1
        let r := if l2 ≥ (t.l1 l1).nblists then (l1 + 1,0) else (l1,l2)
        if r.1 ≥ lg2Alim - lg2Unitsize then -1 else (r.1 <<< 8 + r.2 : ℕ)

/-! ## Lists of free blocks -/

def tlsfInsBlk (t : Tlsf) (mb l1 l2 : ℕ) : Option Tlsf :=
  let tl2 := t.l1 l1
  (lIns t.mem (tl2.blists + 16 * l2) (entry mb)).map fun m =>
    { t with mem := m, l1bm := t.l1bm ||| 1 <<< l1, l1 := update t.l1 l1 { tl2 with bm := tl2.bm ||| 1 <<< l2 } }

def tlsfInsBlkC (t : Tlsf) (mb : ℕ) : Option Tlsf :=
  (calcTlsfIndices (mbSize t.mem mb)).bind fun idx => tlsfInsBlk t mb (idx >>> 8) (idx &&& 0xFF)

def tlsfRemBlk (t : Tlsf) (mb l1 l2 : ℕ) : Option Tlsf :=
  (lRem t.mem (entry mb)).bind fun m =>
    let tl2 := t.l1 l1
    (lIsempty m (tl2.blists + 16 * l2)).map fun e =>
      if e then
        let bm := tl2.bm &&& compl (1 <<< l2)
        { t with mem := m, l1bm := if bm = 0 then t.l1bm &&& compl (1 <<< l1) else t.l1bm,
                 l1 := update t.l1 l1 { tl2 with bm := bm } }
      else { t with mem := m }

def tlsfRemBlkC (t : Tlsf) (mb : ℕ) : Option Tlsf :=
  (calcTlsfIndices (mbSize t.mem mb)).bind fun idx => tlsfRemBlk t mb (idx >>> 8) (idx &&& 0xFF)

/-- `tlsf_split_blk`; the block that it returns is `mb`. -/
def tlsfSplitBlk (t : Tlsf) (mb amt : ℕ) : Option Tlsf :=
  (tlsfRemBlkC t mb).bind fun t =>
    let flags := t.mem mb &&& ctlbmask
    let nmb := mb + amt
    let m := setFreeMb t.mem nmb (diff (mbSize t.mem mb) amt) flags
    let m := setFreeMb m mb amt flags
    tlsfInsBlkC { t with mem := m } nmb

/-! ## Freeing -/

/-- `tlsf_coalesce_and_insert` up to the block before: the block, its size and the heap. -/
def tlsfJoinBack (t : Tlsf) (mb : ℕ) : Option (ℕ × ℕ × Tlsf) :=
  let sz := mbSize t.mem mb
  let m := setFreeMb t.mem mb sz (t.mem mb &&& prevAllocBit)
  let t := { t with mem := m }
  if m mb &&& prevAllocBit = 0 then
    let unitp := mb - unitsize
    let mb := mb - m unitp
    let sz := sz + m unitp
    (tlsfRemBlkC t mb).map fun t => (mb,sz,{ t with mem := setFreeMb t.mem mb sz prevAllocBit })
  else some (mb,sz,t)

/-- The block behind. -/
def tlsfJoinFront (mb sz : ℕ) (t : Tlsf) : Option Tlsf :=
  let unitp := mb + sz
  if t.mem unitp &&& allocBit = 0 then
    (tlsfRemBlkC t unitp).map fun t => { t with mem := setFreeMb t.mem mb (sz + mbSize t.mem unitp) prevAllocBit }
  else some { t with mem := put t.mem unitp (t.mem unitp &&& compl prevAllocBit) }

def tlsfCoalesceAndInsert (t : Tlsf) (mb : ℕ) : Option Tlsf :=
  (tlsfJoinBack t mb).bind fun (mb,sz,t) => (tlsfJoinFront mb sz t).bind fun t => tlsfInsBlkC t mb

def tlsfFree (t : Tlsf) (mem : ℕ) : Option Tlsf :=
  if mem = 0 then some t else tlsfCoalesceAndInsert t (mem - unitsize)

def tlsfInitPool (m : Mem) (pools pool tlen ulen start : ℕ) : Option Mem :=
  (lIns m (m (pools + 8)) pool).map fun m => put (put (put m (pool + 16) tlen) (pool + 24) ulen) (pool + 32) start

def tlsfAddPool (t : Tlsf) (mem len : ℕ) : Option Tlsf :=
  let unitp := mem + tlsfPoolSize
  let ulen := diff (len / unitsize * unitsize) (tlsfPoolSize + unitsize)
  (tlsfInitPool t.mem t.pools mem len ulen unitp).bind fun m =>
    let m := put m (unitp + ulen) allocBit
    let m := put m unitp (ulen ||| (prevAllocBit ||| allocBit))
    tlsfFree { t with mem := m } (unitp + unitsize)

/-! ## Allocation -/

/-- `tlsf_find_blk`: the head of a list, and the index that it gives back. Null is no list. -/
def tlsfFindBlk (t : Tlsf) (idx : ℕ) : Option (ℕ × ℕ) :=
  let l1 := idx >>> 8
  let l2 := idx &&& 0xFF
  let n := (t.l1 l1).bm &&& compl (1 <<< l2 - 1)
  if n = 0 then
    let tmp := 1 <<< l1
    let n := t.l1bm &&& compl (tmp ||| (tmp - 1))
    if n = 0 then none
    else
      let l1 := Bits.ntz64 n
      let l2 := Bits.ntz64 (t.l1 l1).bm
      some ((t.l1 l1).blists + 16 * l2,l1 <<< 8 + l2)
  else
    let l2 := Bits.ntz64 n
    some ((t.l1 l1).blists + 16 * l2,l1 <<< 8 + l2)

def tlsfExtract (t : Tlsf) (head amt idx : ℕ) : Option (ℕ × Tlsf) :=
  let mb := t.mem head - unitsize
  let r := if diff (mbSize t.mem mb) amt ≥ tlsfMinsz then tlsfSplitBlk t mb amt else tlsfRemBlk t mb (idx >>> 8) (idx &&& 0xFF)
  r.map fun t =>
    let m := put t.mem mb (t.mem mb ||| allocBit)
    let nextp := mb + mbSize m mb
    (mb + unitsize,{ t with mem := put m nextp (m nextp ||| prevAllocBit) })

/-- The amount that `tlsf_malloc` looks for; none if it is too big. -/
def tlsfAmount (reqSize : ℕ) : Option ℕ :=
  if reqSize < tlsfMinsz - unitsize then some tlsfMinsz
  else
    let amt := (reqSize + (unitsize <<< 1 - 1)) % 2 ^ 64
    let amt := amt &&& compl (unitsize - 1)
    if amt ≥ alim ∨ amt < reqSize then none else some amt

/-- `tlsf_malloc` from `again` on, for so many searches; `calls` counts those of `add_mem_func`. -/
def tlsfAgain (addMem : Option (ℕ → ℕ → ℕ)) (amt idx : ℕ) : ℕ → ℕ → Tlsf → Option (ℕ × Tlsf)
  | 0, _, _ => none
  | searches + 1, calls, t =>
    match tlsfFindBlk t idx with
    | some (head,idx) => tlsfExtract t head amt idx
    | none =>
      match addMem with
      | none => some (0,t)
      | some f =>
        let moreamt := max (amt + unitsize + tlsfPoolSize) minMoremem
        let mm := f calls moreamt
        if mm = 0 then some (0,t)
        else (tlsfAddPool t mm moreamt).bind (tlsfAgain addMem amt idx searches (calls + 1))

/-- `tlsf_malloc`, for so many searches; `addMem` is the global `add_mem_func`, which gets the number
of its earlier calls. -/
def tlsfMalloc (addMem : Option (ℕ → ℕ → ℕ)) (searches : ℕ) (t : Tlsf) (reqSize : ℕ) : Option (ℕ × Tlsf) :=
  match tlsfAmount reqSize with
  | none => some (0,t)
  | some amt =>
    (calcTlsfIndices amt).bind fun idx => (roundNextTlsfSize t amt idx).bind fun idx =>
      if idx < 0 then some (0,t) else tlsfAgain addMem amt idx.toNat searches 0 t

/-! ## Reallocation -/

def tlsfShrinkBlk (t : Tlsf) (mb sz : ℕ) : Option Tlsf :=
  let delta := diff (mbSize t.mem mb) sz / unitsize * unitsize
  if delta < tlsfMinsz then some t
  else
    let unitp := mb + mbSize t.mem mb
    let finish (nmb nbsz : ℕ) (t : Tlsf) : Option Tlsf :=
      (tlsfInsBlkC { t with mem := setFreeMb t.mem nmb nbsz prevAllocBit } nmb).map fun t =>
        { t with mem := put t.mem mb (sz ||| t.mem mb &&& ctlbmask) }
    if t.mem unitp &&& allocBit = 0 then
      let nbsz := mbSize t.mem unitp
      (tlsfRemBlkC t unitp).bind (finish (unitp - delta) (nbsz + delta))
    else if delta < minAllocShrink then some t
    else finish (mb + sz) delta { t with mem := put t.mem unitp (t.mem unitp &&& compl prevAllocBit) }

/-- `tlsf_realloc` where the next block is joined on; `lenp` is that block. -/
def tlsfGrowBlk (t : Tlsf) (mb lenp delta : ℕ) : Option (ℕ × Tlsf) :=
  let r := if mbSize t.mem lenp > delta + tlsfMinsz then tlsfSplitBlk t lenp delta else tlsfRemBlkC t lenp
  r.map fun t =>
    let next := lenp + mbSize t.mem lenp
    let m := put t.mem next (t.mem next ||| prevAllocBit)
    (mb + unitsize,{ t with mem := put m mb (m mb + mbSize m lenp) })

def tlsfRealloc (addMem : Option (ℕ → ℕ → ℕ)) (searches : ℕ) (t : Tlsf) (omem newamt : ℕ) : Option (ℕ × Tlsf) :=
  if newamt = 0 then (tlsfFree t omem).map (0,·)
  else if omem = 0 then tlsfMalloc addMem searches t newamt
  else
    let tsz := round2u newamt
    if tsz < newamt ∨ tsz > maxAlloc - unitsize then some (0,t)
    else
      let newamt := tsz + unitsize
      let mb := omem - unitsize
      let osize := mbSize t.mem mb - unitsize
      if t.mem mb ≥ newamt then (tlsfShrinkBlk t mb newamt).map (omem,·)
      else
        let lenp := mb + mbSize t.mem mb
        let delta := round2u (newamt - mbSize t.mem mb)
        if t.mem lenp &&& allocBit = 0 ∧ delta ≤ mbSize t.mem lenp then tlsfGrowBlk t mb lenp delta
        else
          (tlsfMalloc addMem searches t newamt).bind fun (nmem,t) =>
            if nmem = 0 then some (nmem,t)
            else (tlsfFree { t with mem := memcpy t.mem nmem omem osize } omem).map (nmem,·)

end Catlib.Alloc
