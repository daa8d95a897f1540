import Catlib.Alloc.Tags

/-! # The first-fit heap of dynmem.c

Memory is words of eight bytes by their addresses. A failed `abort_unless` is no result; those of `l_ins`
and `l_rem`, which hold on rings, are left out. The
search for a block goes around a ring, and the number of addresses bounds its turns.
-/
namespace Catlib.Alloc

/-- `struct dynmem` with its memory; `pools` and `blocks` are the addresses of its two list heads. -/
structure Dynmem where
  mem : Mem
  init : Bool
  pools : ℕ
  blocks : ℕ
  current : ℕ

/-- `sizeof(union dynmempool_u)`. -/
def poolSize : ℕ := 40

def dynmemInit (m : Mem) (pools blocks : ℕ) : Dynmem := ⟨lInit (lInit m pools) blocks,true,pools,blocks,blocks⟩

/-- `split_block`; the block that it returns is `mb`. -/
def splitBlock (m : Mem) (mb amt : ℕ) : Option Mem :=
  if amt % unitsize ≠ 0 then none
  else
    let flags := m mb &&& ctlbmask
    let nmb := mb + amt
    let m := setFreeMb m nmb (mbSize m mb - amt) flags
    let m := link m (entry mb) (entry nmb)
    some (setFreeMb m mb amt flags)

def markFree (m : Mem) (mb : ℕ) : Mem := setFreeMb m mb (mbSize m mb) (m mb &&& prevAllocBit)

/-- The first half of `coalesce`: the block, its size and the memory. -/
def coalesceBack (m : Mem) (mb : ℕ) : ℕ × ℕ × Mem :=
  let sz := mbSize m mb
  if m mb &&& prevAllocBit = 0 then
    let unitp := mb - unitsize
    let mb := mb - m unitp
    let m := unlink m (entry mb)
    let sz := sz + m unitp
    (mb,sz,setFreeMb m mb sz (m mb &&& ctlbmask))
  else (mb,sz,m)

/-- The second half. -/
def coalesceFront (mb sz : ℕ) (m : Mem) : Mem :=
  let unitp := mb + sz
  if m unitp &&& allocBit = 0 then
    let m := unlink m (entry unitp)
    setFreeMb m mb (sz + mbSize m unitp) (m mb &&& ctlbmask)
  else put m unitp (m unitp &&& compl prevAllocBit)

def coalesce (m : Mem) (mb : ℕ) : ℕ × Mem :=
  let r := coalesceBack m mb
  (r.1,coalesceFront r.1 r.2.1 r.2.2)

def dynmemFree (dm : Dynmem) (mem : ℕ) : Dynmem :=
  if dm.init = false ∨ mem = 0 then dm
  else
    let mb := mem - unitsize
    let r := coalesce (markFree dm.mem mb) mb
    let current := if dm.current ≥ r.1 ∧ dm.current < r.1 + mbSize r.2 r.1 then entry r.1 else dm.current
    { dm with mem := link r.2 (r.2 (current + 8)) (entry r.1), current := current }

def dynmemInitPool (m : Mem) (pools pool tlen ulen start : ℕ) : Mem :=
  put (put (put (link m (m (pools + 8)) pool) (pool + 16) tlen) (pool + 24) ulen) (pool + 32) start

def dynmemAddPool (dm : Dynmem) (mem len : ℕ) : Option Dynmem :=
  let ulen := len / unitsize * unitsize
  if ulen < minasz ∨ mem % unitsize ≠ 0 then none
  else
    let unitp := mem + poolSize
    let ulen := ulen - (poolSize + unitsize)
    let m := dynmemInitPool dm.mem dm.pools mem len ulen unitp
    let m := put m (unitp + ulen) allocBit
    let m := put m unitp (ulen ||| prevAllocBit)
    some (dynmemFree { dm with mem := m } (unitp + unitsize))

/-- The search of `dynmem_malloc` from `t` on: the block that fits, if there is one. -/
def findFit (m : Mem) (blocks current amt : ℕ) : ℕ → ℕ → Option (Option ℕ)
  | 0, _ => none
  | n + 1, t =>
    if t ≠ blocks ∧ mbSize m (t - unitsize) ≥ amt then some (some (t - unitsize))
    else if m t ≠ current then findFit m blocks current amt n (m t)
    else some none

/-- What `dynmem_malloc` does with the block that fits. -/
def takeFit (dm : Dynmem) (mb amt : ℕ) : Option (ℕ × Dynmem) :=
  let r := if mbSize dm.mem mb > amt + minsz then (splitBlock dm.mem mb amt).map (amt,·) else some (mbSize dm.mem mb,dm.mem)
  r.map fun (amt,m) =>
    let current := m (entry mb)
    let m := unlink m (entry mb)
    let m := put m mb (m mb ||| allocBit)
    let m := put m (mb + amt) (m (mb + amt) ||| prevAllocBit)
    (mb + unitsize,{ dm with mem := m, current := current })

/-- `dynmem_malloc`; `addMem` is the global `add_mem_func`. -/
def dynmemMalloc (addMem : Option (ℕ → ℕ)) (dm : Dynmem) (amt : ℕ) : Option (ℕ × Dynmem) :=
  let amt := (amt + unitsize) % 2 ^ 64
  if dm.init = false ∨ amt < unitsize ∨ amt > maxAlloc then some (0,dm)
  else
    let amt := if amt < minsz then minsz else round2u amt
    (findFit dm.mem dm.blocks dm.current amt (2 ^ 64) dm.current).bind fun
      | some mb => takeFit dm mb amt
      | none =>
        match addMem with
        | none => some (0,dm)
        | some f =>
          let moreamt := max ((amt + unitsize + poolSize) % 2 ^ 64) minMoremem
          if f moreamt = 0 then some (0,dm)
          else
            (dynmemAddPool dm (f moreamt) moreamt).bind fun dm =>
              (findFit dm.mem dm.blocks dm.current amt (2 ^ 64) dm.current).bind fun mb => mb.bind fun mb => takeFit dm mb amt

def shrinkAllocBlock (dm : Dynmem) (mb sz : ℕ) : Option Dynmem :=
  let m := dm.mem
  let nbsz := mbSize m mb - sz
  if sz % unitsize ≠ 0 then none
  else if dm.init = false ∨ nbsz < minsz then some dm
  else
    let unitp := mb + mbSize m mb
    if m unitp &&& allocBit ≠ 0 ∧ nbsz < minAllocShrink then some dm
    else
      let r := if m unitp &&& allocBit = 0 then (nbsz + mbSize m unitp,unlink m (entry unitp)) else (nbsz,m)
      let nmb := mb + sz
      let m := setFreeMb r.2 nmb r.1 prevAllocBit
      let m := link m dm.current (entry nmb)
      some { dm with mem := put m mb (sz ||| m mb &&& ctlbmask) }

/-- `dynmem_realloc` where the next block is joined on; `lenp` is that block. -/
def growBlock (dm : Dynmem) (mb lenp newamt : ℕ) : Option (ℕ × Dynmem) :=
  let m := dm.mem
  let delta := mbSize m mb + mbSize m lenp - newamt
  let r := if mbSize m lenp > delta + minsz then splitBlock m lenp delta else some m
  r.map fun m =>
    let m := unlink m (entry lenp)
    let next := lenp + mbSize m lenp
    let m := put m next (m next ||| prevAllocBit)
    (mb + unitsize,{ dm with mem := put m mb (m mb + mbSize m lenp) })

def dynmemRealloc (addMem : Option (ℕ → ℕ)) (dm : Dynmem) (omem newamt : ℕ) : Option (ℕ × Dynmem) :=
  if newamt = 0 then some (0,dynmemFree dm omem)
  else if omem = 0 then dynmemMalloc addMem dm newamt
  else
    let tsz := round2u newamt
    if tsz < newamt ∨ tsz > maxAlloc - unitsize then some (0,dm)
    else
      let newamt := tsz + unitsize
      let mb := omem - unitsize
      if dm.mem mb ≥ newamt then (shrinkAllocBlock dm mb newamt).map (omem,·)
      else
        let lenp := mb + mbSize dm.mem mb
        if dm.mem lenp &&& allocBit = 0 ∧ mbSize dm.mem mb + mbSize dm.mem lenp ≥ newamt then growBlock dm mb lenp newamt
        else
          (dynmemMalloc addMem dm newamt).map fun (nmem,dm') =>
            if nmem = 0 then (nmem,dm')
            else (nmem,dynmemFree { dm' with mem := memcpy dm'.mem nmem omem (mbSize dm'.mem mb) } omem)

end Catlib.Alloc
