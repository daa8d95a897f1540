import Catlib.Sort.Heap

/-! # heap.h

An array-based heap whose first element is a least one. Its loops are those of the heap sort with the
comparison turned round, and a loop of its own that moves an element up.
-/
namespace Catlib.BinaryHeap

open Catlib.Sort

variable {α : Type}

/-- The array of a heap, of which `size` slots may be accessed. -/
def slots (size : ℕ) : Cells (ℕ → α) α where
  elem m := m
  swap m i j k := if k = i then m j else if k = j then m i else m k
  nelem := size
  elem_swap _ _ _ _ _ _ _ := rfl

/-- `struct heap`; `mm` says whether there is a memory manager, `elem` is the array. -/
structure Heap (α : Type) where
  size : ℕ
  fill : ℕ
  elem : ℕ → α
  mm : Bool

/-- The accessible part of the array. -/
abbrev Heap.cells (hp : Heap α) : Cells (ℕ → α) α := slots hp.size

/-- One turn of the loop of `reheapup`, on `pos` and the array. -/
def reheapupBody (cmp : α → α → ℤ) (size : ℕ) (x : ℕ × (ℕ → α)) : Option (Turn (ℕ × (ℕ → α)) (ℕ × (ℕ → α))) :=
  let (pos,m) := x
  let ppos := (pos - 1) / 2
  if pos > 0 then do
    let c ← (slots size).cmpAt cmp m ppos pos
    if c > 0 then
      let m ← (slots size).swapAt m pos ppos
      return .again (ppos,m)
    else return .leave (pos,m)
  else some (.leave (pos,m))

/-- `reheapup`: the position that was reached, 0 for one past the end. -/
def reheapup (cmp : α → α → ℤ) (hp : Heap α) (pos : ℕ) : Option (ℕ × Heap α) :=
  if pos ≥ hp.fill then some (0,hp)
  else do
    let (pos,m) ← loop (reheapupBody cmp hp.size) (pos + 1) (pos,hp.elem)
    return (pos,{ hp with elem := m })

/-- The choice of the lesser child; the second one is compared only when it exists. -/
def lesserChild (cmp : α → α → ℤ) (size fill : ℕ) (m : ℕ → α) (cld : ℕ) : Option ℕ :=
  if cld + 1 < fill then do
    let c ← (slots size).cmpAt cmp m cld (cld + 1)
    if c > 0 then return cld + 1 else return cld
  else some cld

/-- One turn of the loop of `reheapdown`. -/
def reheapdownBody (cmp : α → α → ℤ) (size fill : ℕ) (x : ℕ × (ℕ → α)) : Option (Turn (ℕ × (ℕ → α)) (ℕ → α)) :=
  let (pos,m) := x
  if 2 * pos + 1 ≥ fill then some (.leave m)
  else do
    let cld ← lesserChild cmp size fill m (2 * pos + 1)
    let c ← (slots size).cmpAt cmp m pos cld
    if c > 0 then
      let m ← (slots size).swapAt m cld pos
      return .again (cld,m)
    else return .leave m

def reheapdown (cmp : α → α → ℤ) (hp : Heap α) (pos : ℕ) : Option (Heap α) :=
  if pos ≥ hp.fill then some hp
  else do
    let m ← loop (reheapdownBody cmp hp.size hp.fill) (hp.fill + 1) (pos,hp.elem)
    return { hp with elem := m }

/-- The loop of `hp_init`, on `i` and the heap. -/
def hpInitBody (cmp : α → α → ℤ) (x : ℕ × Heap α) : Option (Turn (ℕ × Heap α) (Heap α)) := do
  let (i,hp) := x
  let hp ← reheapdown cmp hp i
  if i > 0 then return .again (i - 1,hp) else return .leave hp

def hpInit (cmp : α → α → ℤ) (elem : ℕ → α) (size fill : ℕ) (mm : Bool) : Option (Heap α) :=
  let hp : Heap α := { size := size, fill := if fill > size then size else fill, elem := elem, mm := mm }
  if fill ≠ 0 then loop (hpInitBody cmp) (hp.fill + 1) (hp.fill / 2,hp) else some hp

/-- The next size: a shift of an `int`, which wraps. -/
def nextSize (size : ℕ) : ℤ := if size = 0 then 32 else Int.bmod (2 * size) (2 ^ 32)

/-- The first half of `hp_add`: `resized` is what `mem_resize` yields, with any contents behind the old ones. -/
def hpGrow (hp : Heap α) (resized : Option (ℕ → α)) : Option (Heap α) :=
  if hp.fill = hp.size then
    if hp.mm = false then none
    else
      let n := nextSize hp.size
      if n < hp.size then none
      else do
        let p ← resized
        return { hp with size := n.toNat, elem := fun k => if k < hp.size then hp.elem k else p k }
  else some hp

/-- `hp_add`: the heap and the position of the element, or no position when it was not added. -/
def hpAdd (cmp : α → α → ℤ) (hp : Heap α) (elem : α) (resized : Option (ℕ → α)) : Option (Heap α × Option ℕ) :=
  match hpGrow hp resized with
  | none => some (hp,none)
  | some hp =>
    let n := hp.fill
    if n < hp.size then do
      let (n,hp) ← reheapup cmp { hp with fill := n + 1, elem := fun k => if k = n then elem else hp.elem k } n
      return (hp,some n)
    else none

/-- `hp_extract`: the heap and the element, or `NULL`. -/
def hpExtract (cmp : α → α → ℤ) (hp : Heap α) : Option (Heap α × Option α) :=
  let last := hp.fill - 1
  if hp.fill = 0 then some (hp,none)
  else do
    let m ← hp.cells.swapAt hp.elem 0 last
    let hold := hp.elem 0
    let hp ← reheapdown cmp { hp with fill := last, elem := m } 0
    return (hp,some hold)

/-- `hp_rem`: the element comes back out of the slot behind the heap. -/
def hpRem (cmp : α → α → ℤ) (hp : Heap α) (elem : ℕ) : Option (Heap α × Option α) :=
  let last := hp.fill - 1
  if elem ≥ hp.fill then some (hp,none)
  else do
    let m ← hp.cells.swapAt hp.elem elem last
    let (pos,hp) ← reheapup cmp { hp with fill := last, elem := m } elem
    let hp ← if pos = elem then reheapdown cmp hp elem else some hp
    return (hp,some (hp.elem last))

/-! ## Down -/

variable {cmp : α → α → ℤ} {m : ℕ → α} {size n p : ℕ} {hp : Heap α}

/-- The comparison with its arguments exchanged. -/
abbrev turned (cmp : α → α → ℤ) : α → α → ℤ := fun a b => cmp b a

theorem isCmp_turned (hc : IsCmp cmp) : IsCmp (turned cmp) :=
  ⟨fun a b => hc.swap b a,fun a b c h1 h2 => hc.trans c b a h2 h1⟩

theorem cmpAt_turned (cmp : α → α → ℤ) (m : ℕ → α) (i j : ℕ) :
    (slots size).cmpAt (turned cmp) m i j = (slots size).cmpAt cmp m j i := by
  simp only [Cells.cmpAt, and_comm]

theorem swapAt_comm (m : ℕ → α) (i j : ℕ) : (slots size).swapAt m i j = (slots size).swapAt m j i := by
  have hs : (slots size).swap m i j = (slots size).swap m j i := by
    funext k
    simp only [slots]
    grind
  simp only [Cells.swapAt, and_comm, hs]

theorem lesserChild_eq (cmp : α → α → ℤ) (m : ℕ → α) (n c : ℕ) :
    lesserChild cmp size n m c = greaterChild (slots size) (turned cmp) 0 n m c := by
  simp only [lesserChild, greaterChild, cmpAt_turned, Nat.zero_add]

theorem cmpAt_test {β : Type} (hc : IsCmp cmp) (m : ℕ → α) (i j : ℕ) (x y : Option β) :
    ((slots size).cmpAt cmp m i j >>= fun c => if c > 0 then x else y) =
      (slots size).cmpAt cmp m j i >>= fun c => if c < 0 then x else y := by
  simp only [Cells.cmpAt, and_comm]
  split
  · simp only [Option.bind_eq_bind, Option.bind_some, hc.swap, gt_iff_lt]
  · rfl

theorem reheapdownBody_eq (hc : IsCmp cmp) (size n : ℕ) :
    reheapdownBody cmp size n = reheapBody (slots size) (turned cmp) 0 n := by
  funext ⟨pos,m⟩
  simp only [reheapdownBody, reheapBody, lesserChild_eq, cmpAt_turned, Nat.zero_add, cmpAt_test hc, swapAt_comm m pos]

theorem reheapdown_eq (hc : IsCmp cmp) (hp : Heap α) (pos : ℕ) :
    reheapdown cmp hp pos = (reheapDown hp.cells (turned cmp) hp.elem 0 hp.fill pos (hp.fill + 1)).map
      (fun m => { hp with elem := m }) := by
  unfold reheapdown reheapDown
  split
  · rfl
  · rw [reheapdownBody_eq hc,Option.map_eq_bind]
    rfl

theorem reheapdown_spec (hc : IsCmp cmp) (hp : Heap α) (hn : hp.fill ≤ hp.size) {lo : ℕ}
    (hh : HeapBut hp.cells (turned cmp) hp.elem 0 hp.fill lo p) :
    ∃ m, reheapdown cmp hp p = some { hp with elem := m } ∧ Swaps hp.cells 0 hp.fill hp.elem m ∧
      HeapFrom hp.cells (turned cmp) m 0 hp.fill lo := by
  obtain ⟨m,hr,hs,hh⟩ := reheapDown_spec (isCmp_turned hc) (by rw [Nat.zero_add]; exact hn) hh (Nat.lt_succ_self _)
  exact ⟨m,by rw [reheapdown_eq hc,hr]; rfl,by simpa using hs,hh⟩

/-! ## Up -/

/-- No element among the first `n` compares greater than one of its children. -/
def IsHeap (cmp : α → α → ℤ) (m : ℕ → α) (n : ℕ) : Prop :=
  ∀ p c, c = 2 * p + 1 ∨ c = 2 * p + 2 → c < n → cmp (m p) (m c) ≤ 0

theorem isHeap_iff (size : ℕ) : IsHeap cmp m n ↔ HeapFrom (slots size) (turned cmp) m 0 n 0 := by
  simp [IsHeap, HeapFrom, slots, cellAt, turned]

/-- A heap except that the element at `p` may be too small for its place. -/
structure HeapUp (cmp : α → α → ℤ) (m : ℕ → α) (n p : ℕ) : Prop where
  others : ∀ q c, c ≠ p → c = 2 * q + 1 ∨ c = 2 * q + 2 → c < n → cmp (m q) (m c) ≤ 0
  grand : ∀ q c, p = 2 * q + 1 ∨ p = 2 * q + 2 → c = 2 * p + 1 ∨ c = 2 * p + 2 → c < n → cmp (m q) (m c) ≤ 0

theorem HeapUp.heap_of_done (hh : HeapUp cmp m n p) (hp : ∀ q, p = 2 * q + 1 ∨ p = 2 * q + 2 → cmp (m q) (m p) ≤ 0) :
    IsHeap cmp m n := by
  intro q c hqc hcn
  by_cases hcp : c = p
  · subst hcp
    exact hp q hqc
  · exact hh.others q c hcp hqc hcn

theorem HeapUp.lift (hc : IsCmp cmp) (size : ℕ) (hh : HeapUp cmp m n p) (hp : p < n) {q : ℕ}
    (hq : p = 2 * q + 1 ∨ p = 2 * q + 2) (hgt : 0 < cmp (m q) (m p)) : HeapUp cmp ((slots size).swap m p q) n q := by
  have hle : cmp (m p) (m q) ≤ 0 := ((hc.swap _ _).mpr hgt).le
  have hs : ∀ k, (slots size).swap m p q k = if k = p then m q else if k = q then m p else m k := fun k => rfl
  constructor
  · intro r c hcq hrc hcn
    by_cases hcp : c = p
    · obtain rfl : r = q := by lia
      rw [hs r,hs c,if_neg (by lia),if_pos rfl,if_pos hcp]
      exact hle
    rw [hs c,if_neg hcp,if_neg hcq]
    by_cases hrp : r = p
    · subst hrp
      rw [hs r,if_pos rfl]
      exact hh.grand q c hq hrc hcn
    by_cases hrq : r = q
    · subst hrq
      rw [hs r,if_neg hrp,if_pos rfl]
      exact hc.trans _ _ _ hle (hh.others r c hcp hrc hcn)
    · rw [hs r,if_neg hrp,if_neg hrq]
      exact hh.others r c hcp hrc hcn
  · intro r c hrq hqc hcn
    have hr := hh.others r q (by lia) hrq (by lia)
    rw [hs r,if_neg (by lia),if_neg (by lia),hs c]
    split
    · exact hr
    · rw [if_neg (by lia)]
      exact hc.trans _ _ _ hr (hh.others q c (by assumption) hqc hcn)

theorem reheapup_spec (hc : IsCmp cmp) (hp : Heap α) (hn : hp.fill ≤ hp.size) (hh : HeapUp cmp hp.elem hp.fill p)
    (hp' : p < hp.fill) :
    ∃ q m, reheapup cmp hp p = some (q,{ hp with elem := m }) ∧ Swaps hp.cells 0 hp.fill hp.elem m ∧
      IsHeap cmp m hp.fill ∧ q ≤ p ∧ m q = hp.elem p := by
  let I : ℕ → ℕ × (ℕ → α) → Prop := fun k x =>
    k = x.1 ∧ x.1 ≤ p ∧ Swaps hp.cells 0 hp.fill hp.elem x.2 ∧ HeapUp cmp x.2 hp.fill x.1 ∧ x.2 x.1 = hp.elem p
  have h0 : I p (p,hp.elem) := ⟨rfl,le_rfl,.refl,hh,rfl⟩
  let Q : ℕ × (ℕ → α) → Prop := fun x =>
    Swaps hp.cells 0 hp.fill hp.elem x.2 ∧ IsHeap cmp x.2 hp.fill ∧ x.1 ≤ p ∧ x.2 x.1 = hp.elem p
  have hl : ∃ r, loop (reheapupBody cmp hp.size) (p + 1) (p,hp.elem) = some r ∧ Q r := by
    refine loop_total ?_ h0 (Nat.lt_succ_self _)
    rintro k ⟨q,m⟩ ⟨hk,h1,hsw,hh,hm⟩
    dsimp only at hk h1 hsw hh hm
    by_cases hq : q > 0
    · have hb1 : (q - 1) / 2 < hp.cells.nelem := show (q - 1) / 2 < hp.size by lia
      have hb2 : q < hp.cells.nelem := show q < hp.size by lia
      have hqc : q = 2 * ((q - 1) / 2) + 1 ∨ q = 2 * ((q - 1) / 2) + 2 := by lia
      have hca : (slots hp.size).cmpAt cmp m ((q - 1) / 2) q = some (cmp (m ((q - 1) / 2)) (m q)) :=
        cmpAt_of_lt cmp m hb1 hb2
      by_cases hgt : cmp (m ((q - 1) / 2)) (m q) > 0
      · refine Or.inl ⟨((q - 1) / 2,hp.cells.swap m q ((q - 1) / 2)),(q - 1) / 2,?_,by lia,rfl,
          by dsimp only; lia,.swap hsw (by lia) (by lia),hh.lift hc hp.size (by lia) hqc hgt,?_⟩
        · simp [reheapupBody, hq, hca, hgt, swapAt_of_lt hb2 hb1]
        · exact (elem_swap_right hb2 hb1).trans hm
      · refine Or.inr ⟨(q,m),?_,hsw,hh.heap_of_done (fun r hr => ?_),h1,hm⟩
        · simp [reheapupBody, hq, hca, hgt]
        · obtain rfl : r = (q - 1) / 2 := by lia
          exact not_lt.mp hgt
    · exact Or.inr ⟨(q,m),by simp [reheapupBody, hq],hsw,hh.heap_of_done (fun r hr => by lia),h1,hm⟩
  obtain ⟨⟨q,m⟩,hr,hs,hh,hq,hm⟩ := hl
  refine ⟨q,m,?_,hs,hh,hq,hm⟩
  rw [reheapup,if_neg (by lia),hr]
  rfl

end Catlib.BinaryHeap
