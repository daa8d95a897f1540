import Mathlib.Data.List.Rotate

/-! # Copies between blocks of memory

A block is the list of its cells. A copy that would read or write outside its blocks has no
result.
-/
namespace Catlib.Buffer

variable {α : Type*}

/-- Read `n` cells from `off` on. -/
def readMem (src : List α) (off n : ℕ) : Option (List α) :=
  if off + n ≤ src.length then some ((src.drop off).take n) else none

/-- Write cells from `off` on. -/
def writeMem (dst : List α) (off : ℕ) (l : List α) : Option (List α) :=
  if off + l.length ≤ dst.length then some (dst.take off ++ l ++ dst.drop (off + l.length)) else none

/-- `memcpy`, and `memmove`, of `n` cells between two blocks. -/
def memcpy (dst : List α) (off : ℕ) (src : List α) (soff n : ℕ) : Option (List α) :=
  (readMem src soff n).bind (writeMem dst off)

variable {dst src l r : List α} {off soff n i : ℕ}

theorem readMem_some (h : off + n ≤ src.length) : readMem src off n = some ((src.drop off).take n) := if_pos h

theorem writeMem_some (h : off + l.length ≤ dst.length) :
    writeMem dst off l = some (dst.take off ++ l ++ dst.drop (off + l.length)) := if_pos h

theorem writeMem_none (h : dst.length < off + l.length) : writeMem dst off l = none := if_neg (by omega)

theorem writeMem_length (h : writeMem dst off l = some r) : r.length = dst.length := by
  rw [writeMem] at h
  split at h
  · rename_i hle
    cases h
    simp only [List.length_append, List.length_take, List.length_drop]
    omega
  · cases h

theorem getElem?_write (h : off + l.length ≤ dst.length) :
    (dst.take off ++ l ++ dst.drop (off + l.length))[i]? = if off ≤ i ∧ i < off + l.length then l[i - off]? else dst[i]? := by
  have htake : (dst.take off).length = off := by
    rw [List.length_take]
    omega
  rcases lt_or_ge i off with h1 | h1
  · rw [List.append_assoc,List.getElem?_append_left (by omega),List.getElem?_take_of_lt h1,if_neg (by omega)]
  rcases lt_or_ge i (off + l.length) with h2 | h2
  · rw [if_pos ⟨h1,h2⟩,List.getElem?_append_left (by rw [List.length_append]; omega),
      List.getElem?_append_right (by omega),htake]
  · rw [if_neg (by omega),List.getElem?_append_right (by rw [List.length_append]; omega),List.getElem?_drop]
    congr 1
    rw [List.length_append,htake]
    omega

theorem memcpy_spec (dst : List α) (off : ℕ) (src : List α) (soff n : ℕ) (hs : soff + n ≤ src.length)
    (hd : off + n ≤ dst.length) : ∃ r, memcpy dst off src soff n = some r ∧
    r.length = dst.length ∧ ∀ i, r[i]? = if off ≤ i ∧ i < off + n then src[soff + (i - off)]? else dst[i]? := by
  have hlen : ((src.drop soff).take n).length = n := by
    rw [List.length_take,List.length_drop]
    omega
  have hd' : off + ((src.drop soff).take n).length ≤ dst.length := by omega
  have hw := writeMem_some hd'
  refine ⟨_,by rw [memcpy,readMem_some hs,Option.bind_some,hw],writeMem_length hw,fun i => ?_⟩
  rw [getElem?_write hd',hlen]
  split
  · rename_i hi
    rw [List.getElem?_take_of_lt (by omega),List.getElem?_drop]
  · rfl

theorem writeMem_append {x : List α} (hx : x.length = off) (h : l.length ≤ r.length) :
    writeMem (x ++ r) off l = some (x ++ l ++ r.drop l.length) := by
  subst hx
  rw [writeMem_some (by rw [List.length_append]; omega),List.take_left' rfl,← List.drop_drop,List.drop_left' rfl]

theorem writeMem_zero (h : l.length ≤ r.length) : writeMem r 0 l = some (l ++ r.drop l.length) :=
  writeMem_append (x := []) rfl h

theorem readMem_append {x : List α} (r : List α) (hx : x.length = off) (hl : l.length = n) :
    readMem (x ++ l ++ r) off n = some l := by
  subst hx hl
  rw [readMem_some (by simp only [List.length_append]; omega),List.append_assoc,List.drop_left' rfl,List.take_left' rfl]

end Catlib.Buffer
