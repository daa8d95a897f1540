import Mathlib.Data.List.Chain
import Mathlib.Data.List.Nodup

/-! # Circular doubly linked lists in a word memory

A memory maps the address of a word to its value, and a list node is two consecutive
words: the link forward at the node's own address, the link back eight bytes further.
A ring is a head with the nodes between the head and itself. Linking a node in and
unlinking one are two edits of an adjacent pair, and what a node does not own stays.
-/
namespace Catlib.Alloc

/-- What stands in each word, by the address of the word. -/
abbrev Mem := ℕ → ℕ

/-- Store `v` in the word at `a`. -/
def put (m : Mem) (a v : ℕ) : Mem := Function.update m a v

theorem put_apply (m : Mem) (a v w : ℕ) : put m a v w = if w = a then v else m w :=
  Function.update_apply m a v w

@[simp] theorem put_self (m : Mem) (a v : ℕ) : put m a v a = v := by
  rw [put_apply,if_pos rfl]

theorem put_ne {m : Mem} {a v w : ℕ} (h : w ≠ a) : put m a v w = m w := by
  rw [put_apply,if_neg h]

/-- Consecutive nodes of the list are linked in both directions. -/
def Linked (m : Mem) (l : List ℕ) : Prop := l.IsChain fun x y => m x = y ∧ m (y + 8) = x

/-- The ring of head `h` with the nodes `qs`. -/
def Ring (m : Mem) (h : ℕ) (qs : List ℕ) : Prop := Linked m (h :: qs ++ [h])

/-- Two nodes that share no word, or one node. -/
def Apart (x y : ℕ) : Prop := x = y ∨ x + 16 ≤ y ∨ y + 16 ≤ x

theorem Apart.symm {x y : ℕ} (h : Apart x y) : Apart y x := by
  unfold Apart at *
  omega

variable {m m' : Mem} {h n p x z : ℕ} {xs ys l : List ℕ}

theorem Linked.join : Linked m (xs ++ x :: ys) ↔ Linked m (xs ++ [x]) ∧ Linked m (x :: ys) :=
  List.isChain_split

theorem Linked.same (hx : Linked m (x :: xs ++ [h])) (hy : Linked m (x :: ys ++ [h])) (hxs : h ∉ xs) (hys : h ∉ ys) : xs = ys := by
  induction xs generalizing x ys with
  | nil =>
    cases ys with
    | nil => rfl
    | cons y ys =>
      have h1 := (List.isChain_cons_cons.1 hx).1.1
      have h2 := (List.isChain_cons_cons.1 hy).1.1
      rw [h2.symm.trans h1] at hys
      exact absurd List.mem_cons_self hys
  | cons z xs ih =>
    cases ys with
    | nil =>
      have h1 := (List.isChain_cons_cons.1 hx).1.1
      have h2 := (List.isChain_cons_cons.1 hy).1.1
      rw [h1.symm.trans h2] at hxs
      exact absurd List.mem_cons_self hxs
    | cons y ys =>
      obtain ⟨h1,hx⟩ := List.isChain_cons_cons.1 hx
      obtain ⟨h2,hy⟩ := List.isChain_cons_cons.1 hy
      obtain rfl : z = y := h1.1.symm.trans h2.1
      rw [ih hx hy (fun h => hxs (List.mem_cons_of_mem z h)) fun h => hys (List.mem_cons_of_mem z h)]

theorem Linked.congr (hl : Linked m l) (hf : ∀ a ∈ l.dropLast, m' a = m a)
    (hb : ∀ b ∈ l.tail, m' (b + 8) = m (b + 8)) : Linked m' l := by
  unfold Linked at *
  induction l with
  | nil => exact .nil
  | cons a l ih =>
    cases l with
    | nil => exact .singleton a
    | cons b l =>
      simp only [List.isChain_cons_cons,List.dropLast_cons_cons,List.tail_cons,List.forall_mem_cons] at *
      refine ⟨⟨hf.1.trans hl.1.1,hb.1.trans hl.1.2⟩,ih hl.2 hf.2 ?_⟩
      exact fun c hc => hb.2 c hc

theorem Ring.congr (hr : Ring m h xs) (hw : ∀ a ∈ h :: xs, m' a = m a ∧ m' (a + 8) = m (a + 8)) :
    Ring m' h xs := by
  refine Linked.congr hr (fun a ha => ?_) (fun b hb => ?_)
  · rw [List.dropLast_concat] at ha
    exact (hw a ha).1
  · simp only [List.cons_append,List.tail_cons,List.mem_append,List.mem_singleton] at hb
    refine (hw b ?_).2
    rcases hb with hb | rfl
    · exact List.mem_cons_of_mem _ hb
    · exact List.mem_cons_self

theorem ring_nil : Ring m h [] ↔ m h = h ∧ m (h + 8) = h := by
  simp [Ring,Linked]

theorem Ring.step {s t : List ℕ} (hr : Ring m h (s ++ t)) :
    m ((h :: s).getLast (by simp)) = (t ++ [h]).head (by simp) ∧
      m ((t ++ [h]).head (by simp) + 8) = (h :: s).getLast (by simp) := by
  have hs : h :: (s ++ t) ++ [h] = (h :: s) ++ (t ++ [h]) := by simp
  unfold Ring Linked at hr
  rw [hs,List.isChain_append] at hr
  exact hr.2.2 _ (by simp [List.getLast?_eq_getLast_of_ne_nil]) _ (by simp [List.head?_eq_some_head])

theorem Ring.rotate {s t : List ℕ} (hr : Ring m h (s ++ p :: t)) : Ring m p (t ++ h :: s) := by
  have hs : h :: (s ++ p :: t) ++ [h] = (h :: s) ++ p :: (t ++ [h]) := by simp
  unfold Ring at hr
  rw [hs,Linked.join] at hr
  have ht : p :: (t ++ h :: s) ++ [p] = (p :: t) ++ h :: (s ++ [p]) := by simp
  unfold Ring
  rw [ht,Linked.join]
  exact ⟨hr.2,hr.1⟩

/-- Link the node `n` in behind `p`. -/
def link (m : Mem) (p n : ℕ) : Mem :=
  put (put (put (put m n (m p)) (n + 8) p) p n) (m p + 8) n

/-- Take the node `n` out of its ring and close it on itself. -/
def unlink (m : Mem) (n : ℕ) : Mem :=
  put (put (put (put m (m (n + 8)) (m n)) (m n + 8) (m (n + 8))) n n) (n + 8) n

theorem link_frame {w : ℕ} (hn : w ≠ n) (hn' : w ≠ n + 8) (hp : w ≠ p) (hz : w ≠ m p + 8) :
    link m p n w = m w := by
  rw [link,put_ne hz,put_ne hp,put_ne hn',put_ne hn]

theorem unlink_frame {w : ℕ} (hn : w ≠ n) (hn' : w ≠ n + 8) (hp : w ≠ m (n + 8))
    (hz : w ≠ m n + 8) : unlink m n w = m w := by
  rw [unlink,put_ne hn',put_ne hn,put_ne hz,put_ne hp]

theorem link_words (hz : m p = z) (hnp : Apart n p) (hnz : Apart n z) (hpz : Apart p z)
    (hp : n ≠ p) (hz' : n ≠ z) :
    link m p n p = n ∧ link m p n (n + 8) = p ∧ link m p n n = z ∧ link m p n (z + 8) = n := by
  unfold Apart at *
  refine ⟨?_,?_,?_,?_⟩ <;> simp only [link,put_apply,hz,↓reduceIte] <;> (repeat' split) <;> lia

theorem unlink_words (hz : m n = z) (hp : m (n + 8) = p) (hnp : Apart n p) (hnz : Apart n z)
    (hpz : Apart p z) (hne : n ≠ p) (hne' : n ≠ z) :
    unlink m n p = z ∧ unlink m n (z + 8) = p := by
  unfold Apart at *
  refine ⟨?_,?_⟩ <;> simp only [unlink,put_apply,hz,hp,↓reduceIte] <;> (repeat' split) <;> lia

theorem link_others {a : ℕ} (han : Apart a n) (hap : Apart a p) (haz : Apart a (m p)) (hne : a ≠ n) :
    (a ≠ p → link m p n a = m a) ∧ (a ≠ m p → link m p n (a + 8) = m (a + 8)) := by
  unfold Apart at *
  constructor <;> intro h <;> apply link_frame <;> lia

theorem unlink_others {a : ℕ} (han : Apart a n) (hap : Apart a (m (n + 8))) (haz : Apart a (m n))
    (hne : a ≠ n) : (a ≠ m (n + 8) → unlink m n a = m a) ∧
      (a ≠ m n → unlink m n (a + 8) = m (a + 8)) := by
  unfold Apart at *
  constructor <;> intro h <;> apply unlink_frame <;> lia

/-- Nodes that pairwise share no word. -/
def Spaced (l : List ℕ) : Prop := ∀ a ∈ l, ∀ b ∈ l, Apart a b

theorem Spaced.cons (hl : Spaced l) (hn : ∀ a ∈ l, Apart n a) : Spaced (n :: l) := by
  intro a ha b hb
  cases ha with
  | head =>
    cases hb with
    | head => exact .inl rfl
    | tail _ hb => exact hn b hb
  | tail _ ha =>
    cases hb with
    | head => exact (hn a ha).symm
    | tail _ hb => exact hl a ha b hb

theorem Linked.upto {pre : List ℕ} (hl : Linked m (pre ++ [p])) (hd : (pre ++ [p]).Nodup)
    (hz : z ∉ (pre ++ [p]).tail)
    (ho : ∀ a ∈ pre ++ [p], (a ≠ p → m' a = m a) ∧ (a ≠ z → m' (a + 8) = m (a + 8))) :
    Linked m' (pre ++ [p]) := by
  refine hl.congr (fun a ha => ?_) (fun b hb => ?_)
  · rw [List.dropLast_concat] at ha
    refine (ho a (by simp [ha])).1 ?_
    rintro rfl
    simp only [List.nodup_append,List.mem_singleton] at hd
    exact hd.2.2 a ha a rfl rfl
  · exact (ho b (List.mem_of_mem_tail hb)).2 fun e => hz (e ▸ hb)

theorem Linked.since {post : List ℕ} (hl : Linked m (z :: post)) (hd : (z :: post).Nodup)
    (hp : p ∉ (z :: post).dropLast)
    (ho : ∀ a ∈ z :: post, (a ≠ p → m' a = m a) ∧ (a ≠ z → m' (a + 8) = m (a + 8))) :
    Linked m' (z :: post) := by
  refine hl.congr (fun a ha => ?_) (fun b hb => ?_)
  · exact (ho a (List.dropLast_subset _ ha)).1 fun e => hp (e ▸ ha)
  · rw [List.tail_cons] at hb
    refine (ho b (List.mem_cons_of_mem _ hb)).2 ?_
    rintro rfl
    simp [hb] at hd

theorem Ring.cut (hd : (h :: (xs ++ ys)).Nodup) (hp : (h :: xs).getLast (by simp) = p)
    (hz : (ys ++ [h]).head (by simp) = z) : ∃ pre post, h :: xs = pre ++ [p] ∧
      ys ++ [h] = z :: post ∧ (pre ++ [p]).Nodup ∧ (z :: post).Nodup ∧
      z ∉ (pre ++ [p]).tail ∧ p ∉ (z :: post).dropLast := by
  have hpre : h :: xs = (h :: xs).dropLast ++ [p] := by
    rw [← hp,List.dropLast_append_getLast]
  have hpost : ys ++ [h] = z :: (ys ++ [h]).tail := by
    rw [← hz,List.cons_head_tail]
  refine ⟨_,_,hpre,hpost,?_,?_,?_,?_⟩
  · rw [← hpre]
    exact hd.sublist (by simp)
  · rw [← hpost]
    exact List.nodup_append_comm.1 (hd.sublist (by simp))
  · rw [← hpre,List.tail_cons,← hz]
    intro hx
    have hy : (ys ++ [h]).head (by simp) ∈ ys ++ [h] := List.head_mem _
    rw [← List.cons_append,List.nodup_append] at hd
    rcases List.mem_append.1 hy with hy | hy
    · exact hd.2.2 _ (List.mem_cons_of_mem _ hx) _ hy rfl
    · rw [List.mem_singleton.1 hy] at hx
      exact (List.nodup_cons.1 hd.1).1 hx
  · rw [← hpost,List.dropLast_concat,← hp]
    intro hx
    rw [← List.cons_append,List.nodup_append] at hd
    exact hd.2.2 _ (List.getLast_mem _) _ hx rfl

theorem Ring.link (hr : Ring m h (xs ++ ys)) (hd : (h :: (xs ++ ys)).Nodup)
    (hp : (h :: xs).getLast (by simp) = p) (hs : Spaced (n :: h :: (xs ++ ys)))
    (hn : n ∉ h :: (xs ++ ys)) : Ring (link m p n) h (xs ++ n :: ys) := by
  have hstep := hr.step
  obtain ⟨pre,post,hpre,hpost,hd₁,hd₂,hz,hp'⟩ := Ring.cut hd hp rfl
  rw [hp] at hstep
  set z := (ys ++ [h]).head (by simp)
  have hmem : ∀ a, a ∈ h :: xs ∨ a ∈ ys ++ [h] → a ∈ h :: (xs ++ ys) := by
    intro a ha
    simp only [List.mem_cons,List.mem_append,List.not_mem_nil] at *
    tauto
  have hpm := hmem p (.inl (hpre ▸ by simp))
  have hzm := hmem z (.inr (hpost ▸ by simp))
  have hap : ∀ a b, a ∈ h :: (xs ++ ys) → b ∈ h :: (xs ++ ys) → Apart a b := fun a b ha hb =>
    hs a (List.mem_cons_of_mem _ ha) b (List.mem_cons_of_mem _ hb)
  have han : ∀ a ∈ h :: (xs ++ ys), Apart a n := fun a ha =>
    hs a (List.mem_cons_of_mem _ ha) n (by simp)
  have ho : ∀ a ∈ h :: (xs ++ ys), (a ≠ p → Alloc.link m p n a = m a) ∧
      (a ≠ z → Alloc.link m p n (a + 8) = m (a + 8)) := by
    intro a ha
    have := link_others (m := m) (han a ha) (hap a p ha hpm)
      (by rw [hstep.1]; exact hap a z ha hzm) (fun e => hn (e ▸ ha))
    rwa [hstep.1] at this
  obtain ⟨w₁,w₂,w₃,w₄⟩ := link_words hstep.1 (han p hpm).symm (han z hzm).symm (hap p z hpm hzm)
    (fun e => hn (e ▸ hpm)) (fun e => hn (e ▸ hzm))
  have hl : Linked m (pre ++ p :: z :: post) := by
    have : h :: (xs ++ ys) ++ [h] = (h :: xs) ++ (ys ++ [h]) := by simp
    rw [Ring,this,hpre,hpost] at hr
    simpa using hr
  obtain ⟨hl₁,-,hl₂⟩ := List.isChain_append_cons_cons.1 hl
  have he : h :: (xs ++ n :: ys) ++ [h] = pre ++ p :: n :: z :: post := by
    have : h :: (xs ++ n :: ys) ++ [h] = (h :: xs) ++ n :: (ys ++ [h]) := by simp
    rw [this,hpre,hpost]
    simp
  rw [Ring,he]
  refine List.isChain_append_cons_cons.2 ⟨?_,⟨w₁,w₂⟩,List.isChain_cons_cons.2 ⟨⟨w₃,w₄⟩,?_⟩⟩
  · exact Linked.upto hl₁ hd₁ hz fun a ha => ho a (hmem a (.inl (hpre ▸ ha)))
  · exact Linked.since hl₂ hd₂ hp' fun a ha => ho a (hmem a (.inr (hpost ▸ ha)))

theorem Ring.unlink (hr : Ring m h (xs ++ n :: ys)) (hd : (h :: (xs ++ n :: ys)).Nodup)
    (hs : Spaced (h :: (xs ++ n :: ys))) : Ring (unlink m n) h (xs ++ ys) ∧
      m ((h :: xs).getLast (by simp)) = n ∧ m (n + 8) = (h :: xs).getLast (by simp) ∧
      m n = (ys ++ [h]).head (by simp) ∧ m ((ys ++ [h]).head (by simp) + 8) = n := by
  have hd' : (h :: (xs ++ ys)).Nodup := hd.sublist (by simp)
  have hn : n ∉ h :: (xs ++ ys) := by
    have : List.Perm (h :: (xs ++ n :: ys)) (n :: h :: (xs ++ ys)) :=
      (List.perm_middle.cons h).trans (List.Perm.swap n h _)
    exact (List.nodup_cons.1 (this.nodup_iff.1 hd)).1
  obtain ⟨pre,post,hpre,hpost,hd₁,hd₂,hz,hp'⟩ := Ring.cut hd' rfl rfl
  set z := (ys ++ [h]).head (by simp)
  set p := (h :: xs).getLast (by simp)
  have hmem : ∀ a, a ∈ h :: xs ∨ a ∈ ys ++ [h] → a ∈ h :: (xs ++ ys) := by
    intro a ha
    simp only [List.mem_cons,List.mem_append,List.not_mem_nil] at *
    tauto
  have hpm := hmem p (.inl (hpre ▸ by simp))
  have hzm := hmem z (.inr (hpost ▸ by simp))
  have hsub : ∀ a ∈ h :: (xs ++ ys), a ∈ h :: (xs ++ n :: ys) := fun a ha =>
    List.Sublist.subset (by simp) ha
  have hap : ∀ a b, a ∈ h :: (xs ++ ys) → b ∈ h :: (xs ++ ys) → Apart a b := fun a b ha hb =>
    hs a (hsub a ha) b (hsub b hb)
  have han : ∀ a ∈ h :: (xs ++ ys), Apart a n := fun a ha => hs a (hsub a ha) n (by simp)
  have hl : Linked m (pre ++ p :: n :: z :: post) := by
    have : h :: (xs ++ n :: ys) ++ [h] = (h :: xs) ++ n :: (ys ++ [h]) := by simp
    rw [Ring,this,hpre,hpost] at hr
    simpa using hr
  obtain ⟨hl₁,⟨e₁,e₂⟩,hl₂⟩ := List.isChain_append_cons_cons.1 hl
  obtain ⟨⟨e₃,e₄⟩,hl₂⟩ := List.isChain_cons_cons.1 hl₂
  have ho : ∀ a ∈ h :: (xs ++ ys), (a ≠ p → Alloc.unlink m n a = m a) ∧
      (a ≠ z → Alloc.unlink m n (a + 8) = m (a + 8)) := by
    intro a ha
    have := unlink_others (m := m) (han a ha) (by rw [e₂]; exact hap a p ha hpm)
      (by rw [e₃]; exact hap a z ha hzm) (fun e => hn (e ▸ ha))
    rwa [e₂,e₃] at this
  obtain ⟨w₁,w₂⟩ := unlink_words e₃ e₂ (han p hpm).symm (han z hzm).symm (hap p z hpm hzm)
    (fun e => hn (e ▸ hpm)) (fun e => hn (e ▸ hzm))
  have he : h :: (xs ++ ys) ++ [h] = pre ++ p :: z :: post := by
    have : h :: (xs ++ ys) ++ [h] = (h :: xs) ++ (ys ++ [h]) := by simp
    rw [this,hpre,hpost]
    simp
  refine ⟨?_,e₁,e₂,e₃,e₄⟩
  rw [Ring,he]
  refine List.isChain_append_cons_cons.2 ⟨?_,⟨w₁,w₂⟩,?_⟩
  · exact Linked.upto hl₁ hd₁ hz fun a ha => ho a (hmem a (.inl (hpre ▸ ha)))
  · exact Linked.since hl₂ hd₂ hp' fun a ha => ho a (hmem a (.inr (hpost ▸ ha)))

/-! ## Edits in another order -/

theorem put_comm {a b u v : ℕ} (h : a ≠ b) : put (put m a v) b u = put (put m b u) a v := Function.update_comm h.symm _ _ _ |>.symm

theorem put_put (m : Mem) (a u v : ℕ) : put (put m a u) a v = put m a v := Function.update_idem _ _ _

theorem link_put {w v : ℕ} (hn : w ≠ n) (hn' : w ≠ n + 8) (hp : w ≠ p) (hz : w ≠ m p + 8) :
    link (put m w v) p n = put (link m p n) w v := by
  rw [link,link,put_ne hp.symm,put_comm hn,put_comm hn',put_comm hp,put_comm hz]

theorem unlink_put {w v : ℕ} (hn : w ≠ n) (hn' : w ≠ n + 8) (hp : w ≠ m (n + 8)) (hz : w ≠ m n + 8) :
    unlink (put m w v) n = put (unlink m n) w v := by
  rw [unlink,unlink,put_ne hn.symm,put_ne hn'.symm,put_comm hp,put_comm hz,put_comm hn,put_comm hn']

theorem link_self (h : m n = n) (h' : m (n + 8) = n) : link m n n = m := by
  have h1 : put m n n = m := (congrArg (put m n) h.symm).trans (Function.update_eq_self n m)
  have h2 : put m (n + 8) n = m := (congrArg (put m (n + 8)) h'.symm).trans (Function.update_eq_self (n + 8) m)
  rw [link,h,h1,h2,h1,h2]

theorem unlink_link {a : ℕ} (hz : m a = z) (hp : m (a + 8) = p) (hna : Apart n a) (hnp : Apart n p) (hnz : Apart n z) (hap : Apart a p)
    (haz : Apart a z) (hpz : Apart p z) (h1 : n ≠ a) (h2 : n ≠ p) (h3 : n ≠ z) (h4 : a ≠ p) (h5 : a ≠ z) :
    unlink (link m a n) a = link (unlink m a) p n := by
  unfold Apart at *
  have hr1 : link m a n a = n := by
    rw [link,put_ne (by lia),put_self]
  have hr2 : link m a n (a + 8) = p := by
    rw [link,hz,put_ne (by lia),put_ne (by lia),put_ne (by lia),put_ne (by lia),hp]
  have hr3 : unlink m a p = z := by
    rw [unlink,hz,hp,put_ne (by lia),put_ne (by lia),put_ne (by lia),put_self]
  rw [unlink,hr1,hr2,link,hz,link,hr3,unlink,hz,hp]
  funext w
  simp only [put_apply]
  split_ifs <;> first | rfl | lia

end Catlib.Alloc
