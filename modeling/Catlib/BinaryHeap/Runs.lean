import Catlib.BinaryHeap.Heap

/-! # Runs of a heap

What every operation does to the contents of a heap, and from it what holds in every run.
-/
namespace Catlib.BinaryHeap

open Catlib.Sort

variable {α : Type} {cmp : α → α → ℤ} {m m' : ℕ → α} {size n p : ℕ} {hp : Heap α}

/-- The first `n` elements, in no order. -/
def bag (m : ℕ → α) (n : ℕ) : Multiset α := (Multiset.range n).map m

abbrev Heap.bag (hp : Heap α) : Multiset α := BinaryHeap.bag hp.elem hp.fill

/-- A heap that fits its array. -/
structure Heap.Sound (cmp : α → α → ℤ) (hp : Heap α) : Prop where
  fits : hp.fill ≤ hp.size
  heap : IsHeap cmp hp.elem hp.fill

/-- An operation with its argument; `resized` is what `mem_resize` yields if it is called. -/
inductive HpOp (α : Type) where
  | add (elem : α) (resized : Option (ℕ → α))
  | extract
  | rem (elem : ℕ)

inductive HpAns (α : Type) where
  | added (pos : Option ℕ)
  | took (elem : Option α)

def hpStep (cmp : α → α → ℤ) (hp : Heap α) : HpOp α → Option (Heap α × HpAns α)
  | .add elem resized => do
    let (hp,pos) ← hpAdd cmp hp elem resized
    return (hp,.added pos)
  | .extract => do
    let (hp,x) ← hpExtract cmp hp
    return (hp,.took x)
  | .rem elem => do
    let (hp,x) ← hpRem cmp hp elem
    return (hp,.took x)

/-- The heaps and the answers of a run. -/
def hpRun (cmp : α → α → ℤ) : Heap α → List (HpOp α) → Option (List (Heap α × HpAns α))
  | _, [] => some []
  | hp, op :: ops => do
    let r ← hpStep cmp hp op
    let rs ← hpRun cmp r.1 ops
    return r :: rs

/-- Extraction until the heap is empty. -/
def hpDrain (cmp : α → α → ℤ) : ℕ → Heap α → Option (List α)
  | 0, _ => none
  | f + 1, hp => do
    match ← hpExtract cmp hp with
    | (_,none) => return []
    | (hp,some x) =>
      let xs ← hpDrain cmp f hp
      return x :: xs

/-- What an operation does to the contents. -/
inductive HpDone (cmp : α → α → ℤ) (hp hp' : Heap α) : HpOp α → HpAns α → Prop
  | full {x : α} {resized : Option (ℕ → α)} (hf : hp.fill = hp.size)
      (hr : hp.mm = false ∨ 2 ^ 30 ≤ hp.size ∨ resized = none) (he : hp' = hp) :
      HpDone cmp hp hp' (.add x resized) (.added none)
  | added {x : α} {resized : Option (ℕ → α)} {pos : ℕ} (hf : pos < hp'.fill) (he : hp'.elem pos = x)
      (hb : hp'.bag = x ::ₘ hp.bag) : HpDone cmp hp hp' (.add x resized) (.added (some pos))
  | empty (hf : hp.fill = 0) (he : hp' = hp) : HpDone cmp hp hp' .extract (.took none)
  | extracted {x : α} (hm : ∀ y ∈ hp.bag, cmp x y ≤ 0) (hb : hp.bag = x ::ₘ hp'.bag) :
      HpDone cmp hp hp' .extract (.took (some x))
  | past {pos : ℕ} (hf : hp.fill ≤ pos) (he : hp' = hp) : HpDone cmp hp hp' (.rem pos) (.took none)
  | removed {pos : ℕ} (hf : pos < hp.fill) (hb : hp.bag = hp.elem pos ::ₘ hp'.bag) :
      HpDone cmp hp hp' (.rem pos) (.took (some (hp.elem pos)))

/-- Extraction until the heap is empty yields its elements in non-decreasing order. -/
def Drains (cmp : α → α → ℤ) (hp : Heap α) : Prop :=
  ∃ xs : List α, hpDrain cmp (hp.fill + 1) hp = some xs ∧ (xs : Multiset α) = hp.bag ∧
    xs.Pairwise (fun a b => cmp a b ≤ 0)

/-- A run in which every operation does what it should. -/
inductive HpTrace (cmp : α → α → ℤ) : Heap α → List (HpOp α) → List (Heap α × HpAns α) → Prop
  | nil {hp : Heap α} : HpTrace cmp hp [] []
  | cons {hp hp' : Heap α} {op : HpOp α} {ans : HpAns α} {ops : List (HpOp α)} {rs : List (Heap α × HpAns α)}
      (hs : hp'.Sound cmp) (hd : HpDone cmp hp hp' op ans) (hx : Drains cmp hp') (ht : HpTrace cmp hp' ops rs) :
      HpTrace cmp hp (op :: ops) ((hp',ans) :: rs)

/-! ## Contents -/

theorem bag_succ (m : ℕ → α) (n : ℕ) : bag m (n + 1) = m n ::ₘ bag m n := by
  rw [bag,Multiset.range_succ,Multiset.map_cons,bag]

theorem bag_congr (h : ∀ k < n, m' k = m k) : bag m' n = bag m n :=
  Multiset.map_congr rfl fun k hk => h k (Multiset.mem_range.mp hk)

theorem bag_swap (size : ℕ) {i j : ℕ} (hi : i < n) (hj : j < n) : bag ((slots size).swap m i j) n = bag m n := by
  have hlt : ∀ k, Equiv.swap i j k < n ↔ k < n := by
    intro k
    rw [Equiv.swap_apply_def]
    split
    · omega
    · split <;> omega
  have hr : (Multiset.range n).map (Equiv.swap i j) = Multiset.range n := by
    rw [Multiset.Nodup.ext ((Multiset.nodup_range n).map (Equiv.swap i j).injective) (Multiset.nodup_range n)]
    intro k
    simp only [Multiset.mem_map, Multiset.mem_range]
    constructor
    · rintro ⟨l,hl,rfl⟩
      exact (hlt l).mpr hl
    · exact fun hk => ⟨Equiv.swap i j k,(hlt k).mpr hk,Equiv.swap_apply_self i j k⟩
  have hs : (slots size).swap m i j = m ∘ Equiv.swap i j := by
    funext k
    simp only [slots, Function.comp_apply, Equiv.swap_apply_def]
    split
    · rfl
    · split <;> rfl
  rw [bag,hs,← Multiset.map_map,hr]
  rfl

theorem bag_swaps (h : Swaps (slots size) 0 n m m') : bag m' n = bag m n := by
  induction h with
  | refl => rfl
  | swap _ hx hy ih => rw [bag_swap size hx.2 hy.2,ih]

theorem bag_last (size : ℕ) {i : ℕ} (hi : i ≤ n) : bag m (n + 1) = m i ::ₘ bag ((slots size).swap m i n) n := by
  have hs : (slots size).swap m i n n = m i := by
    simp only [slots, if_true]
    split
    · rename_i h
      rw [h]
    · rfl
  rw [← bag_swap size (Nat.lt_succ_of_le hi) (Nat.lt_succ_self n),bag_succ,hs]

/-! ## Operations -/

theorem IsHeap.min (hc : IsCmp cmp) (hh : IsHeap cmp m n) {x : α} (hx : x ∈ bag m n) : cmp (m 0) x ≤ 0 := by
  obtain ⟨k,hk,rfl⟩ := Multiset.mem_map.mp hx
  have := HeapFrom.max (isCmp_turned hc) ((isHeap_iff n).mp hh) (Multiset.mem_range.mp hk)
  simpa [cellAt, slots] using this

theorem reheapdown_sound (hc : IsCmp cmp) (hp : Heap α) (hn : hp.fill ≤ hp.size)
    (hh : HeapBut hp.cells (turned cmp) hp.elem 0 hp.fill 0 p) :
    ∃ m, reheapdown cmp hp p = some { hp with elem := m } ∧ Swaps hp.cells 0 hp.fill hp.elem m ∧
      IsHeap cmp m hp.fill := by
  obtain ⟨m,hr,hs,hh⟩ := reheapdown_spec hc hp hn hh
  exact ⟨m,hr,hs,(isHeap_iff hp.size).mpr hh⟩

theorem hpInit_loop (hc : IsCmp cmp) (hp : Heap α) (hn : hp.fill ≤ hp.size) :
    ∃ m, loop (hpInitBody cmp) (hp.fill + 1) (hp.fill / 2,hp) = some { hp with elem := m } ∧
      Swaps hp.cells 0 hp.fill hp.elem m ∧ IsHeap cmp m hp.fill := by
  let I : ℕ → ℕ × Heap α → Prop := fun k x => k = x.1 ∧ x.1 ≤ hp.fill / 2 ∧ ∃ m, x.2 = { hp with elem := m } ∧
    Swaps hp.cells 0 hp.fill hp.elem m ∧ HeapFrom hp.cells (turned cmp) m 0 hp.fill (x.1 + 1)
  have h0 : I (hp.fill / 2) (hp.fill / 2,hp) :=
    ⟨rfl,le_rfl,hp.elem,rfl,.refl,fun p c hp hpc hcn => by dsimp only at hp; omega⟩
  let Q : Heap α → Prop := fun x => ∃ m, x = { hp with elem := m } ∧
    Swaps hp.cells 0 hp.fill hp.elem m ∧ IsHeap cmp m hp.fill
  have hl : ∃ r, loop (hpInitBody cmp) (hp.fill + 1) (hp.fill / 2,hp) = some r ∧ Q r := by
    refine loop_total ?_ h0 (by omega)
    rintro k ⟨i,_⟩ ⟨hk,h1,m,rfl,hsw,hh⟩
    dsimp only at hk h1 hh
    have hbut : HeapBut hp.cells (turned cmp) m 0 hp.fill i i :=
      ⟨fun q c hq hqi => hh q c (by omega),fun q c hq hqi => by omega⟩
    obtain ⟨m',hr,hsw',hh'⟩ := reheapdown_spec hc { hp with elem := m } hn hbut
    by_cases hi : i > 0
    · refine Or.inl ⟨(i - 1,{ hp with elem := m' }),i - 1,by simp [hpInitBody, hr, hi],by omega,rfl,by dsimp only; omega,
        m',rfl,hsw.trans hsw',?_⟩
      dsimp only
      rwa [Nat.sub_add_cancel hi]
    · obtain rfl : i = 0 := by omega
      exact Or.inr ⟨{ hp with elem := m' },by simp [hpInitBody, hr],m',rfl,hsw.trans hsw',(isHeap_iff hp.size).mpr hh'⟩
  obtain ⟨_,hr,m,rfl,hs,hh⟩ := hl
  exact ⟨m,hr,hs,hh⟩

theorem hpInit_spec (hc : IsCmp cmp) (elem : ℕ → α) (size fill : ℕ) (mm : Bool) :
    ∃ hp, hpInit cmp elem size fill mm = some hp ∧ hp.Sound cmp ∧ hp.fill = min fill size ∧
      hp.bag = bag elem (min fill size) := by
  have hmin : (if fill > size then size else fill) = min fill size := by
    split <;> omega
  simp only [hpInit, hmin]
  split
  · let hp : Heap α := ⟨size,min fill size,elem,mm⟩
    obtain ⟨m,hr,hs,hh⟩ := hpInit_loop hc hp (Nat.min_le_right _ _)
    exact ⟨_,hr,⟨Nat.min_le_right _ _,hh⟩,rfl,bag_swaps hs⟩
  · rename_i h
    exact ⟨_,rfl,⟨Nat.min_le_right _ _,fun p c _ hcn => by dsimp only at hcn; omega⟩,rfl,rfl⟩

theorem nextSize_cases (size : ℕ) : (size : ℤ) < nextSize size ∨ 2 ^ 30 ≤ size ∧ nextSize size < size := by
  unfold nextSize
  split
  · omega
  · rw [Int.bmod_eq_emod]
    split <;> omega

theorem hpGrow_spec (hp : Heap α) (resized : Option (ℕ → α)) (hf : hp.fill ≤ hp.size) :
    (hpGrow hp resized = none ∧ hp.fill = hp.size ∧ (hp.mm = false ∨ 2 ^ 30 ≤ hp.size ∨ resized = none)) ∨
      ∃ size elem, hpGrow hp resized = some { hp with size := size, elem := elem } ∧ hp.fill < size ∧
        ∀ k < hp.fill, elem k = hp.elem k := by
  unfold hpGrow
  by_cases hfs : hp.fill = hp.size
  · rw [if_pos hfs]
    by_cases hmm : hp.mm = false
    · exact Or.inl ⟨if_pos hmm,hfs,Or.inl hmm⟩
    rw [if_neg hmm]
    rcases nextSize_cases hp.size with hlt | ⟨hle,hlt⟩
    · rw [if_neg (by omega)]
      cases resized with
      | none => exact Or.inl ⟨rfl,hfs,Or.inr (Or.inr rfl)⟩
      | some p => exact Or.inr ⟨_,_,rfl,by omega,fun k hk => if_pos (by omega)⟩
    · exact Or.inl ⟨if_pos hlt,hfs,Or.inr (Or.inl hle)⟩
  · rw [if_neg hfs]
    exact Or.inr ⟨hp.size,hp.elem,rfl,by omega,fun k _ => rfl⟩

theorem hpAdd_spec (hc : IsCmp cmp) (hs : hp.Sound cmp) (x : α) (resized : Option (ℕ → α)) :
    ∃ hp' pos, hpAdd cmp hp x resized = some (hp',pos) ∧ hp'.Sound cmp ∧
      HpDone cmp hp hp' (.add x resized) (.added pos) := by
  obtain ⟨hfits,hheap⟩ := hs
  unfold hpAdd
  rcases hpGrow_spec hp resized hfits with ⟨hg,hf,hr⟩ | ⟨size,elem,hg,hlt,he⟩
  · rw [hg]
    exact ⟨hp,none,rfl,⟨hfits,hheap⟩,.full hf hr rfl⟩
  rw [hg]
  simp only [if_pos hlt]
  let m : ℕ → α := fun k => if k = hp.fill then x else elem k
  have hm : ∀ k < hp.fill, m k = hp.elem k := fun k hk => (if_neg (by omega)).trans (he k hk)
  have hup : HeapUp cmp m (hp.fill + 1) hp.fill := by
    refine ⟨fun q c hcp hqc hcn => ?_,fun q c _ _ _ => by omega⟩
    rw [hm q (by omega),hm c (by omega)]
    exact hheap q c hqc (by omega)
  obtain ⟨q,m',hr,hsw,hh,hq,hx⟩ := reheapup_spec hc ⟨size,hp.fill + 1,m,hp.mm⟩ hlt hup (Nat.lt_succ_self _)
  refine ⟨⟨size,hp.fill + 1,m',hp.mm⟩,some q,by rw [hr]; rfl,⟨hlt,hh⟩,.added (Nat.lt_succ_of_le hq) ?_ ?_⟩
  · exact hx.trans (if_pos rfl)
  · rw [Heap.bag,bag_swaps hsw,bag_succ,bag_congr hm]
    exact congrArg (· ::ₘ _) (if_pos rfl)

theorem heapBut_of (hh : ∀ q c, q ≠ p → c = 2 * q + 1 ∨ c = 2 * q + 2 → c < n → cmp (m q) (m c) ≤ 0)
    (hg : ∀ q c, p = 2 * q + 1 ∨ p = 2 * q + 2 → c = 2 * p + 1 ∨ c = 2 * p + 2 → c < n → cmp (m q) (m c) ≤ 0) :
    HeapBut (slots size) (turned cmp) m 0 n 0 p := by
  constructor
  · intro q c _ hq hqc hcn
    simpa [cellAt, slots] using hh q c hq hqc hcn
  · intro q c _ hq hqc hcn
    simpa [cellAt, slots] using hg q c hq hqc hcn

theorem swap_last_ne (size : ℕ) (m : ℕ → α) {k : ℕ} (hk : k < n) (hkp : k ≠ p) : (slots size).swap m p n k = m k := by
  simp only [slots]
  rw [if_neg hkp,if_neg (by omega)]

theorem IsHeap.swap_last (hh : IsHeap cmp m (n + 1)) {q c : ℕ} (hq : q ≠ p) (hcp : c ≠ p)
    (hqc : c = 2 * q + 1 ∨ c = 2 * q + 2) (hcn : c < n) :
    cmp ((slots size).swap m p n q) ((slots size).swap m p n c) ≤ 0 := by
  rw [swap_last_ne size m (by omega) hq,swap_last_ne size m hcn hcp]
  exact hh q c hqc (by omega)

theorem hpExtract_spec (hc : IsCmp cmp) (hs : hp.Sound cmp) :
    ∃ hp' x, hpExtract cmp hp = some (hp',x) ∧ hp'.Sound cmp ∧ HpDone cmp hp hp' .extract (.took x) := by
  obtain ⟨hfits,hheap⟩ := hs
  unfold hpExtract
  by_cases hf : hp.fill = 0
  · rw [if_pos hf]
    exact ⟨hp,none,rfl,⟨hfits,hheap⟩,.empty hf rfl⟩
  obtain ⟨n,hn⟩ : ∃ n, hp.fill = n + 1 := ⟨hp.fill - 1,by omega⟩
  have hb0 : 0 < hp.cells.nelem := show 0 < hp.size by omega
  have hbn : n < hp.cells.nelem := show n < hp.size by omega
  rw [hn] at hheap
  have hbut : HeapBut hp.cells (turned cmp) (hp.cells.swap hp.elem 0 n) 0 n 0 0 := by
    exact heapBut_of (fun q c hq hqc hcn => hheap.swap_last hq (by omega) hqc hcn) (fun q c h0 => by omega)
  obtain ⟨m,hr,hsw,hh⟩ := reheapdown_sound hc ⟨hp.size,n,hp.cells.swap hp.elem 0 n,hp.mm⟩ (by dsimp only; omega) hbut
  refine ⟨⟨hp.size,n,m,hp.mm⟩,some (hp.elem 0),?_,⟨by dsimp only; omega,hh⟩,.extracted (fun y hy => ?_) ?_⟩
  · simp [hn, swapAt_of_lt hb0 hbn, hr]
  · rw [Heap.bag,hn] at hy
    exact hheap.min hc hy
  · rw [Heap.bag,hn,bag_last hp.size (Nat.zero_le n),← bag_swaps hsw]

theorem reheapup_stay (hn : hp.fill ≤ hp.size) (hpf : p < hp.fill)
    (hle : ∀ q, p = 2 * q + 1 ∨ p = 2 * q + 2 → cmp (hp.elem q) (hp.elem p) ≤ 0) : reheapup cmp hp p = some (p,hp) := by
  have hb : reheapupBody cmp hp.size (p,hp.elem) = some (.leave (p,hp.elem)) := by
    by_cases h0 : p > 0
    · have hca : (slots hp.size).cmpAt cmp hp.elem ((p - 1) / 2) p = some (cmp (hp.elem ((p - 1) / 2)) (hp.elem p)) :=
        cmpAt_of_lt cmp hp.elem (show (p - 1) / 2 < hp.size by omega) (show p < hp.size by omega)
      have := hle ((p - 1) / 2) (by omega)
      simp [reheapupBody, h0, hca, this]
    · simp [reheapupBody, h0]
  rw [reheapup,if_neg (by omega),loop_leave hb]
  rfl

theorem reheap_spec (hc : IsCmp cmp) (hp : Heap α) (hn : hp.fill ≤ hp.size) (hpf : p < hp.fill)
    (hh : ∀ q c, q ≠ p → c ≠ p → c = 2 * q + 1 ∨ c = 2 * q + 2 → c < hp.fill → cmp (hp.elem q) (hp.elem c) ≤ 0)
    (hg : ∀ q c, p = 2 * q + 1 ∨ p = 2 * q + 2 → c = 2 * p + 1 ∨ c = 2 * p + 2 → c < hp.fill →
      cmp (hp.elem q) (hp.elem c) ≤ 0) :
    ∃ m q m', reheapup cmp hp p = some (q,{ hp with elem := m }) ∧
      (if q = p then reheapdown cmp { hp with elem := m } p else some { hp with elem := m }) =
        some { hp with elem := m' } ∧
      Swaps hp.cells 0 hp.fill hp.elem m' ∧ IsHeap cmp m' hp.fill := by
  by_cases hup : ∃ q, (p = 2 * q + 1 ∨ p = 2 * q + 2) ∧ 0 < cmp (hp.elem q) (hp.elem p)
  · -- it is less than its parent, and so than all below it
    obtain ⟨r,hr,hgt⟩ := hup
    have hbut : HeapUp cmp hp.elem hp.fill p := by
      refine ⟨fun q c hcp hqc hcn => ?_,hg⟩
      by_cases hqp : q = p
      · subst hqp
        exact hc.trans _ _ _ ((hc.swap _ _).mpr hgt).le (hg r c hr hqc hcn)
      · exact hh q c hqp hcp hqc hcn
    obtain ⟨q,m,hr,hsw,hheap,-,-⟩ := reheapup_spec hc hp hn hbut hpf
    by_cases hq : q = p
    · have hdown : HeapBut hp.cells (turned cmp) m 0 hp.fill 0 p :=
        heapBut_of (fun r c _ hrc hcn => hheap r c hrc hcn)
          (fun r c hr hpc hcn => hc.trans _ _ _ (hheap r p hr hpf) (hheap p c hpc hcn))
      obtain ⟨m',hr',hsw',hheap'⟩ := reheapdown_sound hc { hp with elem := m } hn hdown
      exact ⟨m,q,m',hr,by rw [if_pos hq,hr'],hsw.trans hsw',hheap'⟩
    · exact ⟨m,q,m,hr,if_neg hq,hsw,hheap⟩
  · have hle : ∀ q, p = 2 * q + 1 ∨ p = 2 * q + 2 → cmp (hp.elem q) (hp.elem p) ≤ 0 :=
      fun q hq => not_lt.mp fun hgt => hup ⟨q,hq,hgt⟩
    have hdown : HeapBut hp.cells (turned cmp) hp.elem 0 hp.fill 0 p := by
      refine heapBut_of (fun q c hqp hqc hcn => ?_) hg
      by_cases hcp : c = p
      · subst hcp
        exact hle q hqc
      · exact hh q c hqp hcp hqc hcn
    obtain ⟨m,hr,hsw,hheap⟩ := reheapdown_sound hc hp hn hdown
    exact ⟨hp.elem,p,m,reheapup_stay hn hpf hle,(if_pos rfl).trans hr,hsw,hheap⟩

theorem hpRem_spec (hc : IsCmp cmp) (hs : hp.Sound cmp) (pos : ℕ) :
    ∃ hp' x, hpRem cmp hp pos = some (hp',x) ∧ hp'.Sound cmp ∧ HpDone cmp hp hp' (.rem pos) (.took x) := by
  obtain ⟨hfits,hheap⟩ := hs
  unfold hpRem
  by_cases hf : pos ≥ hp.fill
  · rw [if_pos hf]
    exact ⟨hp,none,rfl,⟨hfits,hheap⟩,.past hf rfl⟩
  obtain ⟨n,hn⟩ : ∃ n, hp.fill = n + 1 := ⟨hp.fill - 1,by lia⟩
  have hb1 : pos < hp.cells.nelem := show pos < hp.size by lia
  have hb2 : n < hp.cells.nelem := show n < hp.size by lia
  have hfits₁ : n ≤ hp.size := by lia
  rw [hn] at hheap
  let hp₁ : Heap α := ⟨hp.size,n,hp.cells.swap hp.elem pos n,hp.mm⟩
  have hne : ∀ k < n, k ≠ pos → hp₁.elem k = hp.elem k := fun k hk hkp => swap_last_ne hp.size hp.elem hk hkp
  have hlast : hp₁.elem n = hp.elem pos := elem_swap_right (A := hp.cells) hb1 hb2
  have hothers : ∀ q c, q ≠ pos → c ≠ pos → c = 2 * q + 1 ∨ c = 2 * q + 2 → c < n →
      cmp (hp₁.elem q) (hp₁.elem c) ≤ 0 := by
    intro q c hq hcp hqc hcn
    rw [hne q (by lia) hq,hne c hcn hcp]
    exact hheap q c hqc (by lia)
  have hre : ∃ m q m', reheapup cmp hp₁ pos = some (q,{ hp₁ with elem := m }) ∧
      (if q = pos then reheapdown cmp { hp₁ with elem := m } pos else some { hp₁ with elem := m }) =
        some { hp₁ with elem := m' } ∧
      Swaps hp.cells 0 n hp₁.elem m' ∧ IsHeap cmp m' n := by
    by_cases hpn : pos = n
    · -- the last element goes, and no other moves
      have hdown : (if 0 = pos then reheapdown cmp hp₁ pos else some hp₁) = some hp₁ := by
        rw [reheapdown,if_pos (show pos ≥ hp₁.fill from hpn.ge),ite_self]
      exact ⟨hp₁.elem,0,hp₁.elem,if_pos (show pos ≥ hp₁.fill from hpn.ge),hdown,.refl,
        fun q c hqc hcn => hothers q c (by lia) (by lia) hqc hcn⟩
    · refine reheap_spec hc hp₁ hfits₁ (show pos < n by lia) hothers fun q c hq hpc hcn => ?_
      have hcn' : c < n := hcn
      rw [hne q (by lia) (by lia),hne c hcn (by lia)]
      exact hc.trans _ _ _ (hheap q pos hq (by lia)) (hheap pos c hpc (by lia))
  obtain ⟨m,q,m',hup,hdown,hsw,hh⟩ := hre
  have hm' : m' n = hp.elem pos := (hsw.outside hfits₁ hb2 (Or.inr le_rfl)).trans hlast
  have hbag : hp.bag = hp.elem pos ::ₘ bag m' n := by
    rw [Heap.bag,hn,bag_last hp.size (show pos ≤ n by lia),bag_swaps hsw]
  refine ⟨{ hp₁ with elem := m' },some (m' n),?_,⟨hfits₁,hh⟩,hm' ▸ .removed (by lia) hbag⟩
  rw [if_neg hf]
  simp only [hn, Nat.add_sub_cancel, swapAt_of_lt hb1 hb2, Option.bind_eq_bind, Option.bind_some]
  rw [hup,Option.bind_some]
  by_cases hq : q = pos
  · simp only [if_pos hq] at hdown ⊢
    rw [hdown]
    rfl
  · simp only [if_neg hq] at hdown ⊢
    obtain rfl : m = m' := congrArg Heap.elem (Option.some.inj hdown)
    rfl

/-! ## Runs -/

theorem hpStep_spec (hc : IsCmp cmp) (hs : hp.Sound cmp) (op : HpOp α) :
    ∃ hp' ans, hpStep cmp hp op = some (hp',ans) ∧ hp'.Sound cmp ∧ HpDone cmp hp hp' op ans := by
  cases op with
  | add x resized =>
    obtain ⟨hp',pos,hr,hs',hd⟩ := hpAdd_spec hc hs x resized
    exact ⟨hp',.added pos,by rw [hpStep,hr]; rfl,hs',hd⟩
  | extract =>
    obtain ⟨hp',x,hr,hs',hd⟩ := hpExtract_spec hc hs
    exact ⟨hp',.took x,by rw [hpStep,hr]; rfl,hs',hd⟩
  | rem pos =>
    obtain ⟨hp',x,hr,hs',hd⟩ := hpRem_spec hc hs pos
    exact ⟨hp',.took x,by rw [hpStep,hr]; rfl,hs',hd⟩

theorem hpDrain_spec (hc : IsCmp cmp) (hs : hp.Sound cmp) : Drains cmp hp := by
  unfold Drains
  induction hn : hp.fill generalizing hp with
  | zero =>
    refine ⟨[],?_,by rw [Heap.bag,hn]; rfl,.nil⟩
    rw [hpDrain,hpExtract,if_pos hn]
    rfl
  | succ n ih =>
    obtain ⟨hp',x,hr,hs',hd⟩ := hpExtract_spec hc hs
    cases hd with
    | empty hf _ => omega
    | extracted hm hb =>
      rename_i x
      have hcard : hp'.fill = n := by
        have := congrArg Multiset.card hb
        simp [Heap.bag, bag] at this
        omega
      obtain ⟨xs,hxs,hbag,hsort⟩ := ih hs' hcard
      refine ⟨x :: xs,by rw [hpDrain,hr]; simp [hxs],by rw [← Multiset.cons_coe,hbag,hb],
        List.pairwise_cons.mpr ⟨fun y hy => ?_,hsort⟩⟩
      refine hm y ?_
      rw [hb,← hbag]
      exact Multiset.mem_cons_of_mem (Multiset.mem_coe.mpr hy)

theorem hpRun_trace (hc : IsCmp cmp) (hs : hp.Sound cmp) (ops : List (HpOp α)) :
    ∃ rs, hpRun cmp hp ops = some rs ∧ HpTrace cmp hp ops rs := by
  induction ops generalizing hp with
  | nil => exact ⟨[],rfl,.nil⟩
  | cons op ops ih =>
    obtain ⟨hp',ans,hr,hs',hd⟩ := hpStep_spec hc hs op
    obtain ⟨rs,hrs,ht⟩ := ih hs'
    exact ⟨(hp',ans) :: rs,by rw [hpRun,hr]; simp [hrs],.cons hs' hd (hpDrain_spec hc hs') ht⟩

/-- A heap that was initialised on the first `fill` elements of an array stays one in every run. -/
theorem hpRun_spec (hc : IsCmp cmp) (elem : ℕ → α) (size fill : ℕ) (mm : Bool) (ops : List (HpOp α)) :
    ∃ hp rs, hpInit cmp elem size fill mm = some hp ∧ hp.Sound cmp ∧ hp.bag = bag elem (min fill size) ∧
      Drains cmp hp ∧ hpRun cmp hp ops = some rs ∧ HpTrace cmp hp ops rs := by
  obtain ⟨hp,hi,hs,-,hb⟩ := hpInit_spec hc elem size fill mm
  obtain ⟨rs,hr,ht⟩ := hpRun_trace hc hs ops
  exact ⟨hp,rs,hi,hs,hb,hpDrain_spec hc hs,hr,ht⟩

theorem hpRun_spec_sample :
    ∃ hp rs, hpInit (fun a b : ℤ => a - b) (fun k => [3,1,2].getD k 0) 4 3 false = some hp ∧
      hp.Sound (fun a b => a - b) ∧ hp.bag = bag (fun k => [3,1,2].getD k 0) 3 ∧ Drains (fun a b => a - b) hp ∧
      hpRun (fun a b => a - b) hp [.add 0 none,.extract,.rem 1] = some rs ∧
      HpTrace (fun a b => a - b) hp [.add 0 none,.extract,.rem 1] rs :=
  hpRun_spec isCmp_sub (fun k => [3,1,2].getD k 0) 4 3 false [.add 0 none,.extract,.rem 1]

end Catlib.BinaryHeap
