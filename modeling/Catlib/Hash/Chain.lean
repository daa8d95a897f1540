import Catlib.Tree.Linked

/-! # Chains with back pointers

A chain starts in a slot, either a bucket of an array or the `next` field of a node,
and every node of it points back at the slot it hangs from. Removing a node needs
nothing but the node.
-/
namespace Catlib.Hash
open Linked

/-- The places that hold a node pointer: what `struct hnode **` points at. -/
inductive Slot where
  | bkt (i : ℕ)
  | next (a : Addr)
  deriving DecidableEq

/-- `struct hnode`. -/
structure HNode (κ : Type) where
  next : Addr
  prevp : Option Slot
  key : κ

/-- The bucket array and the nodes. -/
structure HtHeap (κ : Type) where
  bkts : ℕ → Addr
  node : Addr → HNode κ

variable {κ : Type} {h h' : HtHeap κ} {s s' : Slot} {xs ys : List Addr} {a : Addr}

def HtHeap.get (h : HtHeap κ) : Slot → Addr
  | .bkt i => h.bkts i
  | .next a => (h.node a).next

def HtHeap.put (h : HtHeap κ) (a : Addr) (n : HNode κ) : HtHeap κ :=
  { h with node := fun x => if x = a then n else h.node x }

def HtHeap.set (h : HtHeap κ) : Slot → Addr → HtHeap κ
  | .bkt i, v => { h with bkts := fun j => if j = i then v else h.bkts j }
  | .next a, v => h.put a { h.node a with next := v }

def HtHeap.setPrevp (h : HtHeap κ) (a : Addr) (p : Option Slot) : HtHeap κ :=
  h.put a { h.node a with prevp := p }

def HtHeap.keys (h : HtHeap κ) : Addr → κ := fun x => (h.node x).key
def HtHeap.prevp (h : HtHeap κ) : Addr → Option Slot := fun x => (h.node x).prevp

section
variable (h : HtHeap κ) (s t : Slot) (a x v : Addr) (p : Option Slot)

theorem HtHeap.get_set : (h.set s v).get t = if t = s then v else h.get t := by
  cases s <;> cases t <;> simp only [HtHeap.set, HtHeap.get, HtHeap.put, Slot.bkt.injEq, Slot.next.injEq,
    reduceCtorEq, if_false]
  split <;> simp_all

@[simp] theorem HtHeap.prevp_set : (h.set s v).prevp = h.prevp := by
  cases s
  · rfl
  · funext x
    simp only [HtHeap.prevp, HtHeap.set, HtHeap.put]
    split <;> simp_all

@[simp] theorem HtHeap.keys_set : (h.set s v).keys = h.keys := by
  cases s
  · rfl
  · funext x
    simp only [HtHeap.keys, HtHeap.set, HtHeap.put]
    split <;> simp_all

@[simp] theorem HtHeap.get_setPrevp : (h.setPrevp a p).get t = h.get t := by
  cases t
  · rfl
  · simp only [HtHeap.get, HtHeap.setPrevp, HtHeap.put]
    split <;> simp_all

theorem HtHeap.prevp_setPrevp : (h.setPrevp a p).prevp x = if x = a then p else h.prevp x := by
  simp only [HtHeap.prevp, HtHeap.setPrevp, HtHeap.put]
  split <;> rfl

@[simp] theorem HtHeap.keys_setPrevp : (h.setPrevp a p).keys = h.keys := by
  funext x
  simp only [HtHeap.keys, HtHeap.setPrevp, HtHeap.put]
  split <;> simp_all

end

/-! ## Chains -/

/-- From the slot `s` on the nodes of the list follow, up to a null link. -/
def Chain (h : HtHeap κ) : Slot → List Addr → Prop
  | s, [] => h.get s = 0
  | s, a :: as => h.get s = a ∧ a ≠ 0 ∧ h.prevp a = some s ∧ Chain h (.next a) as

/-- The slot behind the last node of a list that starts in `s`. -/
def slotAfter : Slot → List Addr → Slot
  | s, [] => s
  | _, a :: as => slotAfter (.next a) as

/-- The slots a chain reads. -/
abbrev slots (s : Slot) (xs : List Addr) : List Slot := s :: xs.map .next

theorem slotAfter_mem (s : Slot) (xs : List Addr) : slotAfter s xs ∈ slots s xs := by
  induction xs generalizing s with
  | nil => simp [slotAfter]
  | cons a as ih => exact List.mem_cons_of_mem _ (ih (.next a))

theorem Chain.ne_zero (hc : Chain h s xs) : 0 ∉ xs := by
  induction xs generalizing s with
  | nil => simp
  | cons a as ih =>
    rw [List.mem_cons,not_or]
    exact ⟨hc.2.1.symm,ih hc.2.2.2⟩

theorem Chain.congr (hc : Chain h s xs) (hg : ∀ t ∈ slots s xs, h'.get t = h.get t)
    (hp : ∀ a ∈ xs, h'.prevp a = h.prevp a) : Chain h' s xs := by
  induction xs generalizing s with
  | nil => exact (hg s (by simp)).trans hc
  | cons a as ih =>
    refine ⟨(hg s (by simp)).trans hc.1,hc.2.1,(hp a (by simp)).trans hc.2.2.1,?_⟩
    exact ih hc.2.2.2 (fun t ht => hg t (List.mem_cons_of_mem _ ht)) (fun b hb => hp b (List.mem_cons_of_mem _ hb))

theorem Chain.reslot (hc : Chain h s xs) (hd : xs.Nodup) (hs : h'.get s' = h.get s)
    (hg : ∀ a ∈ xs, h'.get (.next a) = h.get (.next a)) (hf : h.get s ≠ 0 → h'.prevp (h.get s) = some s')
    (hp : ∀ a ∈ xs, a ≠ h.get s → h'.prevp a = h.prevp a) : Chain h' s' xs := by
  cases xs with
  | nil => exact hs.trans hc
  | cons a as =>
    obtain ⟨h1,h2,h3,h4⟩ := hc
    rw [List.nodup_cons] at hd
    rw [h1] at hs hf hp
    refine ⟨hs,h2,hf h2,h4.congr ?_ ?_⟩
    · intro t ht
      rcases List.mem_cons.mp ht with rfl | ht
      · exact hg a (by simp)
      · obtain ⟨b,hb,rfl⟩ := List.mem_map.mp ht
        exact hg b (List.mem_cons_of_mem _ hb)
    · intro b hb
      exact hp b (List.mem_cons_of_mem _ hb) (by rintro rfl; exact hd.1 hb)

theorem Chain.suffix (hc : Chain h s (xs ++ ys)) : Chain h (slotAfter s xs) ys := by
  induction xs generalizing s with
  | nil => exact hc
  | cons a as ih => exact ih hc.2.2.2

theorem Chain.graft {zs : List Addr} (hc : Chain h s (xs ++ ys)) (hd : (slots s xs).Nodup)
    (hg : ∀ t ∈ slots s xs, t ≠ slotAfter s xs → h'.get t = h.get t) (hp : ∀ a ∈ xs, h'.prevp a = h.prevp a)
    (hz : Chain h' (slotAfter s xs) zs) : Chain h' s (xs ++ zs) := by
  induction xs generalizing s with
  | nil => exact hz
  | cons a as ih =>
    obtain ⟨h1,h2,h3,h4⟩ := hc
    have hne : s ≠ slotAfter (.next a) as := by
      intro he
      exact (List.nodup_cons.mp hd).1 (he ▸ slotAfter_mem (.next a) as)
    refine ⟨(hg s (by simp) hne).trans h1,h2,(hp a (by simp)).trans h3,?_⟩
    exact ih h4 (List.nodup_cons.mp hd).2 (fun t ht => hg t (List.mem_cons_of_mem _ ht))
      (fun b hb => hp b (List.mem_cons_of_mem _ hb)) hz

/-! ## Linking and unlinking -/

/-- Hang `n` from the slot `s`, in front of what was there. -/
def link (h : HtHeap κ) (s : Slot) (n : Addr) : HtHeap κ :=
  let h := h.setPrevp n (some s)
  let h := h.set (.next n) (h.get s)
  let h := if h.get s ≠ 0 then h.setPrevp (h.get s) (some (.next n)) else h
  h.set s n

/-- The assignments of `ht_rem`. -/
def unlink (h : HtHeap κ) (n : Addr) : HtHeap κ :=
  let h :=
    match (h.node n).prevp with
    | none => h
    | some p =>
      let h := h.set p (h.node n).next
      let h := if h.get p ≠ 0 then h.setPrevp (h.get p) (some p) else h
      h.setPrevp n none
  h.set (.next n) 0

@[simp] theorem link_keys (h : HtHeap κ) (s : Slot) (n : Addr) : (link h s n).keys = h.keys := by
  simp only [link]
  split <;> simp

@[simp] theorem unlink_keys (h : HtHeap κ) (n : Addr) : (unlink h n).keys = h.keys := by
  simp only [unlink]
  split <;> try split
  all_goals simp

theorem link_get {i n : ℕ} (t : Slot) : (link h (.bkt i) n).get t =
    if t = .bkt i then n else if t = .next n then h.get (.bkt i) else h.get t := by
  simp only [link]
  split <;> simp only [HtHeap.get_set, HtHeap.get_setPrevp, reduceCtorEq, if_false]

theorem link_prevp {i n : ℕ} (x : Addr) (hx : x ≠ 0) : (link h (.bkt i) n).prevp x =
    if x = h.get (.bkt i) then some (.next n) else if x = n then some (.bkt i) else h.prevp x := by
  simp only [link, HtHeap.get_set, HtHeap.get_setPrevp, reduceCtorEq, if_false]
  by_cases h0 : h.get (.bkt i) = 0
  · simp [h0, hx, HtHeap.prevp_setPrevp]
  · simp [h0, HtHeap.prevp_setPrevp]

theorem unlink_get {n : Addr} {p : Slot} (hp : h.prevp n = some p) (t : Slot) : (unlink h n).get t =
    if t = .next n then 0 else if t = p then h.get (.next n) else h.get t := by
  simp only [HtHeap.prevp] at hp
  simp only [unlink, hp]
  split <;> simp only [HtHeap.get_set, HtHeap.get_setPrevp] <;> rfl

theorem unlink_prevp {n : Addr} {p : Slot} (hp : h.prevp n = some p) (x : Addr) (hx : x ≠ 0) : (unlink h n).prevp x =
    if x = n then none else if x = h.get (.next n) then some p else h.prevp x := by
  simp only [HtHeap.prevp] at hp
  simp only [unlink, hp, HtHeap.get_set, if_true, HtHeap.prevp_set, HtHeap.prevp_setPrevp]
  have hn : (h.node n).next = h.get (.next n) := rfl
  rw [hn]
  by_cases h0 : h.get (.next n) = 0
  · simp [h0, hx]
  · simp [h0, HtHeap.prevp_setPrevp]

theorem Chain.link {i n : ℕ} (hc : Chain h (.bkt i) xs) (hd : xs.Nodup) (hn : n ∉ xs) (hn0 : n ≠ 0) :
    Chain (link h (.bkt i) n) (.bkt i) (n :: xs) := by
  have hx0 := hc.ne_zero
  have hhead : h.get (.bkt i) ≠ n := by
    cases xs with
    | nil => rw [show h.get (.bkt i) = 0 from hc]; exact hn0.symm
    | cons b bs => rw [hc.1]; rintro rfl; simp at hn
  refine ⟨by simp [link_get],hn0,?_,hc.reslot hd ?_ ?_ ?_ ?_⟩
  · simp [link_prevp _ hn0, hhead.symm]
  · simp [link_get]
  · intro b hb
    have hbn : b ≠ n := by rintro rfl; exact hn hb
    simp [link_get, hbn]
  · intro h0
    simp [link_prevp _ h0]
  · intro b hb hbh
    have hbn : b ≠ n := by rintro rfl; exact hn hb
    rw [link_prevp b (by rintro rfl; exact hx0 hb)]
    simp [hbh, hbn]

theorem Chain.unlink {i : ℕ} (hc : Chain h (.bkt i) (xs ++ a :: ys)) (hd : (xs ++ a :: ys).Nodup) :
    Chain (unlink h a) (.bkt i) (xs ++ ys) ∧ h.prevp a = some (slotAfter (.bkt i) xs) := by
  have hx0 := hc.ne_zero
  obtain ⟨h1,h2,h3,h4⟩ := hc.suffix
  have hmem := slotAfter_mem (.bkt i) xs
  have hyd : ys.Nodup := (List.nodup_append.mp hd).2.1.of_cons
  have hslots : (slots (.bkt i) xs).Nodup := by
    refine List.nodup_cons.mpr ⟨by simp,List.Nodup.map (fun a b => Slot.next.inj) (List.nodup_append.mp hd).1⟩
  have hnext : ∀ b ∈ ys, b ≠ a ∧ b ≠ 0 ∧ b ∉ xs := by
    intro b hb
    simp only [List.nodup_append, List.nodup_cons, List.mem_cons, List.mem_append] at hd hx0
    refine ⟨by rintro rfl; exact hd.2.1.1 hb,by rintro rfl; tauto,fun hbx => hd.2.2 b hbx b (Or.inr hb) rfl⟩
  have hax : a ∉ xs := fun ha => (List.nodup_append.mp hd).2.2 a ha a (by simp) rfl
  have hend : slotAfter (.bkt i) xs ≠ .next a := by
    intro he
    rw [he] at hmem
    simp [hax] at hmem
  have hendy : ∀ b ∈ ys, slotAfter (.bkt i) xs ≠ .next b := by
    intro b hb he
    rw [he] at hmem
    simp [(hnext b hb).2.2] at hmem
  refine ⟨hc.graft hslots ?_ ?_ (h4.reslot hyd ?_ ?_ ?_ ?_),h3⟩
  · intro t ht hte
    have hta : t ≠ .next a := by
      rintro rfl
      simp [hax] at ht
    simp [unlink_get h3, hta, hte]
  · intro b hb
    have hba : b ≠ a := by rintro rfl; exact hax hb
    have hb0 : b ≠ 0 := by rintro rfl; exact hx0 (by simp [hb])
    have hbn : b ≠ h.get (.next a) := by
      cases ys with
      | nil => rw [show h.get (.next a) = 0 from h4]; exact hb0
      | cons c cs =>
        rw [h4.1]
        rintro rfl
        exact (hnext b (by simp)).2.2 hb
    simp [unlink_prevp h3 b hb0, hba, hbn]
  · simp [unlink_get h3, hend]
  · intro b hb
    simp [unlink_get h3, (hnext b hb).1, (hendy b hb).symm]
  · intro h0
    have hna : h.get (.next a) ≠ a := by
      cases ys with
      | nil => exact absurd h4 h0
      | cons c cs => rw [h4.1]; exact (hnext c (by simp)).1
    simp [unlink_prevp h3 _ h0, hna]
  · intro b hb hbh
    simp [unlink_prevp h3 b (hnext b hb).2.1, (hnext b hb).1, hbh]

theorem Chain.link_other {i j n : ℕ} (hc : Chain h (.bkt j) ys) (hij : j ≠ i) (hn : n ∉ ys)
    (hh : h.get (.bkt i) ∉ ys) : Chain (Hash.link h (.bkt i) n) (.bkt j) ys := by
  have hx0 := hc.ne_zero
  refine hc.congr ?_ ?_
  · intro t ht
    rcases List.mem_cons.mp ht with rfl | ht
    · simp [link_get, hij]
    · obtain ⟨b,hb,rfl⟩ := List.mem_map.mp ht
      have hbn : b ≠ n := by rintro rfl; exact hn hb
      simp [link_get, hbn]
  · intro b hb
    have hbn : b ≠ n := by rintro rfl; exact hn hb
    have hbh : b ≠ h.get (.bkt i) := by rintro rfl; exact hh hb
    simp [link_prevp b (by rintro rfl; exact hx0 hb), hbn, hbh]

theorem Chain.unlink_other {j : ℕ} {p : Slot} (hc : Chain h (.bkt j) ys) (hp : h.prevp a = some p)
    (hpy : p ∉ slots (.bkt j) ys) (ha : a ∉ ys) (hh : h.get (.next a) ∉ ys) :
    Chain (Hash.unlink h a) (.bkt j) ys := by
  have hx0 := hc.ne_zero
  refine hc.congr ?_ ?_
  · intro t ht
    have htp : t ≠ p := by rintro rfl; exact hpy ht
    have hta : t ≠ .next a := by
      rintro rfl
      simp [ha] at ht
    simp [unlink_get hp, hta, htp]
  · intro b hb
    have hba : b ≠ a := by rintro rfl; exact ha hb
    have hbh : b ≠ h.get (.next a) := by rintro rfl; exact hh hb
    simp [unlink_prevp hp b (by rintro rfl; exact hx0 hb), hba, hbh]

end Catlib.Hash
