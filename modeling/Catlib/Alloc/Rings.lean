import Catlib.Alloc.Ring

/-! # A family of rings in one memory

Several rings, each with its own head, and the map that says which ring a node is on.
The nodes and the heads share no word, so an edit of one ring leaves the others as they
are and every word that no node owns keeps its value.
-/
namespace Catlib.Alloc

open Function

variable {ι : Type*}

/-- The heads and the nodes on some ring. -/
def Node (head : ι → ℕ) (F : ℕ → Option ι) (a : ℕ) : Prop := (∃ i, a = head i) ∨ ∃ i, F a = some i

/-- The nodes of ring `i` in their order. -/
def Lists (m : Mem) (head : ι → ℕ) (F : ℕ → Option ι) (L : ι → List ℕ) : Prop :=
  ∀ i, Ring m (head i) (L i) ∧ (L i).Nodup ∧ ∀ n, n ∈ L i ↔ F n = some i

/-- The nodes that `F` puts on ring `i` are the ones on the ring of `head i`. -/
structure Rings (m : Mem) (head : ι → ℕ) (F : ℕ → Option ι) : Prop where
  lists : ∃ L, Lists m head F L
  heads : Injective head
  head_off : ∀ i, F (head i) = none
  apart : ∀ a b, Node head F a → Node head F b → Apart a b
  pos : ∀ a, Node head F a → 0 < a

/-- A position of ring `i`: its head or one of its nodes. -/
def OnRing (head : ι → ℕ) (F : ℕ → Option ι) (i : ι) (p : ℕ) : Prop := p = head i ∨ F p = some i

variable {m m' : Mem} {head : ι → ℕ} {F : ℕ → Option ι} {i j : ι} {n p w : ℕ}

theorem OnRing.node (h : OnRing head F i p) : Node head F p :=
  h.imp (fun h => ⟨i,h⟩) fun h => ⟨i,h⟩

/-- A word that belongs to no node. -/
def Outside (head : ι → ℕ) (F : ℕ → Option ι) (w : ℕ) : Prop :=
  ∀ a, Node head F a → w ≠ a ∧ w ≠ a + 8

namespace Rings

theorem congr (r : Rings m head F) (h : ∀ w, ¬Outside head F w → m' w = m w) : Rings m' head F := by
  obtain ⟨L,hL⟩ := r.lists
  refine ⟨⟨L,fun i => ⟨(hL i).1.congr fun a ha => ?_,(hL i).2⟩⟩,r.heads,r.head_off,r.apart,r.pos⟩
  have hn : Node head F a := by
    rcases List.mem_cons.1 ha with rfl | ha
    · exact .inl ⟨i,rfl⟩
    · exact .inr ⟨i,((hL i).2.2 a).1 ha⟩
  exact ⟨h a fun ho => (ho a hn).1 rfl,h (a + 8) fun ho => (ho a hn).2 rfl⟩

theorem put (r : Rings m head F) (hw : Outside head F w) (v : ℕ) : Rings (put m w v) head F :=
  r.congr fun _ hx => put_ne fun e => hx (e ▸ hw)

theorem head_nodup (r : Rings m head F) {L : ι → List ℕ} (hL : Lists m head F L) :
    (head i :: L i).Nodup := by
  refine List.nodup_cons.2 ⟨fun h => ?_,(hL i).2.1⟩
  rw [(hL i).2.2,r.head_off] at h
  cases h

theorem position {L : ι → List ℕ} (hL : Lists m head F L) (hp : OnRing head F i p) :
    ∃ xs ys, L i = xs ++ ys ∧ (head i :: xs).getLast (by simp) = p := by
  rcases hp with rfl | hp
  · exact ⟨[],L i,rfl,rfl⟩
  · obtain ⟨xs,ys,hs⟩ := List.append_of_mem (((hL i).2.2 p).2 hp)
    exact ⟨xs ++ [p],ys,by simp [hs],by simp⟩

theorem spaced (r : Rings m head F) {l : List ℕ} (hl : ∀ a ∈ l, Node head F a) : Spaced l :=
  fun a ha b hb => r.apart a b (hl a ha) (hl b hb)

theorem member_node {L : ι → List ℕ} (hL : Lists m head F L) {a : ℕ} (ha : a ∈ head i :: L i) :
    Node head F a := by
  rcases List.mem_cons.1 ha with rfl | ha
  · exact .inl ⟨i,rfl⟩
  · exact .inr ⟨i,((hL i).2.2 a).1 ha⟩

theorem next (r : Rings m head F) (hp : OnRing head F i p) :
    OnRing head F i (m p) ∧ m (m p + 8) = p := by
  obtain ⟨L,hL⟩ := r.lists
  obtain ⟨xs,ys,hs,rfl⟩ := position hL hp
  obtain ⟨hr,-,hm⟩ := hL i
  rw [hs] at hr hm
  have hst := hr.step
  rw [hst.1]
  refine ⟨?_,hst.2⟩
  cases ys with
  | nil => exact .inl rfl
  | cons y ys => exact .inr ((hm y).1 (by simp))

theorem prev (r : Rings m head F) (hp : OnRing head F i p) :
    OnRing head F i (m (p + 8)) ∧ m (m (p + 8)) = p := by
  obtain ⟨L,hL⟩ := r.lists
  obtain ⟨hr,-,hm⟩ := hL i
  -- what stands before the position, and the position as the head of the rest
  obtain ⟨xs,ys,hs,hh⟩ : ∃ xs ys, L i = xs ++ ys ∧ (ys ++ [head i]).head (by simp) = p := by
    rcases hp with rfl | hp
    · exact ⟨L i,[],by simp,rfl⟩
    · obtain ⟨xs,ys,hs⟩ := List.append_of_mem ((hm p).2 hp)
      exact ⟨xs,p :: ys,hs,rfl⟩
  rw [hs] at hr hm
  have hst := hr.step
  rw [hh] at hst
  rw [hst.2]
  refine ⟨?_,hst.1⟩
  rcases List.mem_cons.1 (List.getLast_mem (l := head i :: xs) (by simp)) with h | h
  · exact .inl h
  · exact .inr ((hm _).1 (List.mem_append_left _ h))

theorem next_ne (r : Rings m head F) (hn : F n = some i) : m n ≠ n := by
  obtain ⟨L,hL⟩ := r.lists
  obtain ⟨hr,hd,hm⟩ := hL i
  obtain ⟨xs,ys,hs⟩ := List.append_of_mem ((hm n).2 hn)
  have hst := Ring.step (s := xs ++ [n]) (t := ys) (h := head i) (m := m) (by simpa [hs] using hr)
  have hlast : (head i :: (xs ++ [n])).getLast (by simp) = n := by simp
  rw [hlast] at hst
  rw [hst.1]
  intro he
  cases ys with
  | nil =>
    have he : head i = n := he
    rw [← he,r.head_off] at hn
    cases hn
  | cons y ys =>
    have he : y = n := he
    rw [hs,he] at hd
    have hd := (List.nodup_append.1 hd).2.1
    exact (List.nodup_cons.1 hd).1 List.mem_cons_self

theorem prev_ne (r : Rings m head F) (hn : F n = some i) : m (n + 8) ≠ n := by
  intro he
  have h := (r.prev (.inr hn)).2
  rw [he] at h
  exact r.next_ne hn h

theorem empty_iff (r : Rings m head F) : m (head i) = head i ↔ ∀ n, F n ≠ some i := by
  obtain ⟨L,hL⟩ := r.lists
  obtain ⟨hr,-,hm⟩ := hL i
  have hs := Ring.step (s := []) (t := L i) hr
  simp only [List.getLast_singleton] at hs
  rw [hs.1]
  cases hl : L i with
  | nil => simpa [hl] using hm
  | cons y ys =>
    have hy := (hm y).1 (by simp [hl])
    refine ⟨fun he => ?_,fun he => absurd hy (he y)⟩
    rw [show y = head i from he,r.head_off] at hy
    cases hy

theorem onRing_unique (r : Rings m head F) {a : ℕ} (hi : OnRing head F i a)
    (hj : OnRing head F j a) : i = j := by
  rcases hi with rfl | hi <;> rcases hj with hj | hj
  · exact r.heads hj
  · rw [r.head_off] at hj
    cases hj
  · rw [hj,r.head_off] at hi
    cases hi
  · exact Option.some.inj (hi.symm.trans hj)

theorem same {F' : ℕ → Option ι} (r : Rings m head F) (r' : Rings m head F') (hn : F n = some i) : F' n = some i := by
  obtain ⟨L,hL⟩ := r.lists
  obtain ⟨L',hL'⟩ := r'.lists
  have hll := (hL i).1.same (hL' i).1 (List.nodup_cons.1 (r.head_nodup hL)).1 (List.nodup_cons.1 (r'.head_nodup hL')).1
  rw [← (hL' i).2.2,← hll,(hL i).2.2]
  exact hn

theorem other (r : Rings m head F) {L : ι → List ℕ} (hL : Lists m head F L) (hj : j ≠ i)
    (h : ∀ a, Node head F a → ¬OnRing head F i a → m' a = m a ∧ m' (a + 8) = m (a + 8)) :
    Ring m' (head j) (L j) :=
  (hL j).1.congr fun a ha => h a (member_node hL ha) fun hi =>
    hj (r.onRing_unique ((List.mem_cons.1 ha).imp id ((hL j).2.2 a).1) hi)

theorem node_update (hn : ¬Node head F n) {a : ℕ} :
    Node head (update F n (some i)) a ↔ Node head F a ∨ a = n := by
  by_cases h : a = n
  · subst h
    simp [Node]
  · simp [Node,h]

theorem link (r : Rings m head F) (hp : OnRing head F i p) (hn : ¬Node head F n)
    (ha : ∀ a, Node head F a → Apart n a) (h0 : 0 < n) :
    Rings (link m p n) head (update F n (some i)) ∧
      ∀ w, Outside head F w → w ≠ n → w ≠ n + 8 → link m p n w = m w := by
  classical
  have hnext := r.next hp
  have ho : ∀ a, Node head F a → _ := fun a hna => link_others (m := m) (ha a hna).symm
    (r.apart a p hna hp.node) (r.apart a _ hna hnext.1.node) (fun e => hn (e ▸ hna))
  obtain ⟨L,hL⟩ := r.lists
  obtain ⟨xs,ys,hs,hlast⟩ := position hL hp
  have hnode := fun a => node_update (i := i) hn (a := a)
  refine ⟨⟨⟨fun j => if j = i then xs ++ n :: ys else L j,fun j => ?_⟩,r.heads,fun j => ?_,?_,?_⟩,
    fun w hw h₁ h₂ => link_frame h₁ h₂ (hw p hp.node).1 (hw _ hnext.1.node).2⟩
  · by_cases hj : j = i
    · subst hj
      obtain ⟨hr,hd,hm⟩ := hL j
      have hnl : n ∉ head j :: L j := fun h => hn (member_node hL h)
      have hsp : Spaced (n :: head j :: L j) :=
        (r.spaced fun a => member_node hL).cons fun a hma => ha a (member_node hL hma)
      have hh := r.head_nodup hL (i := j)
      rw [hs] at hr hh hsp hnl hm hd
      simp only [if_true]
      refine ⟨hr.link hh hlast hsp hnl,?_,fun a => ?_⟩
      · exact (List.nodup_middle).2 (List.nodup_cons.2 ⟨fun h => hnl (List.mem_cons_of_mem _ h),hd⟩)
      · by_cases hae : a = n
        · subst hae
          simp
        · rw [update_of_ne hae,← hm]
          simp [hae]
    · simp only [if_neg hj]
      obtain ⟨hr,hd,hm⟩ := hL j
      refine ⟨r.other hL hj fun a hna hi => ?_,hd,fun a => ?_⟩
      · exact ⟨(ho a hna).1 fun e => hi (e ▸ hp),(ho a hna).2 fun e => hi (e ▸ hnext.1)⟩
      · rw [hm]
        by_cases hae : a = n
        · subst hae
          have : F a ≠ some j := fun h => hn (.inr ⟨j,h⟩)
          simp [this,Ne.symm hj]
        · rw [update_of_ne hae]
  · rw [update_of_ne (fun e => hn (.inl ⟨j,e.symm⟩)),r.head_off]
  · intro a b hna hnb
    rcases (hnode a).1 hna with h | h <;> rcases (hnode b).1 hnb with h' | h'
    · exact r.apart a b h h'
    · exact h' ▸ (ha a h).symm
    · exact h ▸ ha b h'
    · exact .inl (h.trans h'.symm)
  · intro a hna
    rcases (hnode a).1 hna with hna | rfl
    · exact r.pos a hna
    · exact h0

theorem unlink (r : Rings m head F) (hn : F n = some i) :
    Rings (unlink m n) head (update F n none) ∧
      ∀ w, Outside head F w → unlink m n w = m w := by
  classical
  have hon : OnRing head F i n := .inr hn
  have hnext := r.next hon
  have hprev := r.prev hon
  have ho : ∀ a, Node head F a → a ≠ n → _ := fun a hna hne => unlink_others (m := m)
    (r.apart a n hna hon.node) (r.apart a _ hna hprev.1.node) (r.apart a _ hna hnext.1.node) hne
  obtain ⟨L,hL⟩ := r.lists
  obtain ⟨xs,ys,hs⟩ := List.append_of_mem (((hL i).2.2 n).2 hn)
  have hnode : ∀ a, Node head (update F n none) a → Node head F a := by
    intro a hna
    refine hna.imp id ?_
    rintro ⟨j,hj⟩
    by_cases h : a = n
    · simp [h] at hj
    · exact ⟨j,by rwa [update_of_ne h] at hj⟩
  refine ⟨⟨⟨fun j => if j = i then xs ++ ys else L j,fun j => ?_⟩,r.heads,fun j => ?_,?_,?_⟩,
    fun w hw => unlink_frame (hw n hon.node).1 (hw n hon.node).2 (hw _ hprev.1.node).1
      (hw _ hnext.1.node).2⟩
  · by_cases hj : j = i
    · subst hj
      obtain ⟨hr,hd,hm⟩ := hL j
      have hh := r.head_nodup hL (i := j)
      have hsp := r.spaced fun a => member_node (i := j) hL (a := a)
      rw [hs] at hr hd hm hh hsp
      simp only [if_true]
      have hd' := List.nodup_cons.1 (List.nodup_middle.1 hd)
      refine ⟨(hr.unlink hh hsp).1,hd'.2,fun a => ?_⟩
      by_cases hae : a = n
      · simpa [hae] using hd'.1
      · rw [update_of_ne hae,← hm]
        simp [hae]
    · simp only [if_neg hj]
      obtain ⟨-,hd,hm⟩ := hL j
      refine ⟨r.other hL hj fun a hna hi => ?_,hd,fun a => ?_⟩
      · have := ho a hna fun e => hi (e ▸ hon)
        exact ⟨this.1 fun e => hi (e ▸ hprev.1),this.2 fun e => hi (e ▸ hnext.1)⟩
      · rw [hm]
        by_cases hae : a = n
        · simp [hae,hn,Ne.symm hj]
        · rw [update_of_ne hae]
  · by_cases h : head j = n
    · rw [h,update_self]
    · rw [update_of_ne h,r.head_off]
  · exact fun a b hna hnb => r.apart a b (hnode a hna) (hnode b hnb)
  · exact fun a hna => r.pos a (hnode a hna)

end Rings

end Catlib.Alloc

/-! # The list functions of list.h in a word memory

A failed `abort_unless` is no result. On rings the assertions hold.
-/
namespace Catlib.Alloc

variable {ι : Type*} {m : Mem} {head : ι → ℕ} {F : ℕ → Option ι} {i : ι} {n p : ℕ}

def lInit (m : Mem) (l : ℕ) : Mem := put (put m l l) (l + 8) l

def lIns (m : Mem) (prev elem : ℕ) : Option Mem :=
  if prev = 0 ∨ elem = 0 then none
  else if m prev = 0 ∨ m (m prev + 8) ≠ prev then none
  else some (link m prev elem)

def lRem (m : Mem) (elem : ℕ) : Option Mem :=
  if elem = 0 then none
  else if m elem = 0 ∨ m (m elem + 8) ≠ elem then none
  else if m (elem + 8) = 0 ∨ m (m (elem + 8)) ≠ elem then none
  else some (unlink m elem)

def lIsempty (m : Mem) (list : ℕ) : Option Bool := if list = 0 then none else some (m list = list)

namespace Rings

theorem lIns (r : Rings m head F) (hp : OnRing head F i p) (hn : 0 < n) : lIns m p n = some (Alloc.link m p n) := by
  obtain ⟨hnext,hback⟩ := r.next hp
  have h0 := r.pos p hp.node
  have h1 := r.pos _ hnext.node
  rw [Alloc.lIns,if_neg (by omega),if_neg (by rw [hback]; omega)]

theorem lRem (r : Rings m head F) (hn : F n = some i) : lRem m n = some (Alloc.unlink m n) := by
  obtain ⟨hnext,hback⟩ := r.next (.inr hn)
  obtain ⟨hprev,hforth⟩ := r.prev (.inr hn)
  have h0 := r.pos n (.inr ⟨i,hn⟩)
  have h1 := r.pos _ hnext.node
  have h2 := r.pos _ hprev.node
  rw [Alloc.lRem,if_neg (by omega),if_neg (by rw [hback]; omega),if_neg (by rw [hforth]; omega)]

end Rings

end Catlib.Alloc
