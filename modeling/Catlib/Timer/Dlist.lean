import Catlib.Timer.Time
import Mathlib.Data.List.Nodup

/-! # The delta list of dlist.h

A timer on the list stores its remaining time as the difference to its predecessor. The
circular list is the list of its timers in order, each with the name of its node; the list
head is a node as well, and removing the last timer adds to its time.
-/
namespace Catlib.Timer

abbrev Timers := List (ℕ × CatTime)

structure Dlist where
  head : CatTime
  timers : Timers

/-- `dl_init`, on the head of a list. -/
def dlInit : Dlist := ⟨tmZero,[]⟩

/-- What `dl_init` and `dl_update` store: a negative time becomes zero. -/
def startTtl (ttl : CatTime) : CatTime := if tmLtz ttl then tmZero else ttl

/-- The walk of `dl_ins` with the time that is left, and the insertion. -/
def insWalk (node : ℕ) (ttl : CatTime) : Timers → Timers
  | [] => [(node,ttl)]
  | (k,d) :: l => if tmCmp ttl d < 0 then (node,ttl) :: (k,tmSub d ttl) :: l else (k,d) :: insWalk node (tmSub ttl d) l

def dlIns (dl : Dlist) (node : ℕ) (ttl : CatTime) : Dlist := { dl with timers := insWalk node ttl dl.timers }

/-- The walk of `dl_adv`: the timers that it cuts off and those that stay. -/
def advWalk (delta : CatTime) : Timers → Timers × Timers
  | [] => ([],[])
  | (k,d) :: l =>
    if tmCmp d delta > 0 then ([],(k,tmSub d delta) :: l)
    else ((k,d) :: (advWalk (tmSub delta d) l).1,(advWalk (tmSub delta d) l).2)

def dlAdv (dl : Dlist) (delta : CatTime) : Timers × Dlist :=
  ((advWalk delta dl.timers).1,{ dl with timers := (advWalk delta dl.timers).2 })

/-- The time of a removed node goes to the node behind it, which may be the head. -/
def giveNext (head d : CatTime) : Timers → Dlist
  | [] => ⟨tmAdd head d,[]⟩
  | (k',d') :: l => ⟨head,(k',tmAdd d' d) :: l⟩

/-- `dl_rem` at the node `elem`. -/
def dlRemAt (elem : ℕ) (head : CatTime) : Timers → Dlist
  | [] => ⟨head,[]⟩
  | (k,d) :: l =>
    if k = elem then giveNext head d l
    else { dlRemAt elem head l with timers := (k,d) :: (dlRemAt elem head l).timers }

def dlRem (dl : Dlist) (elem : ℕ) : Dlist := dlRemAt elem dl.head dl.timers

def dlUpdate (dl : Dlist) (elem : ℕ) (ttl : CatTime) : Dlist := dlIns (dlRem dl elem) elem (startTtl ttl)

/-! ## Remaining times -/

/-- The time until a timer on the list is due: the sum of the stored times up to it. -/
def remaining : Timers → ℕ → Option ℤ
  | [], _ => none
  | (k,d) :: l, id => if id = k then some d.value else (remaining l id).map (d.value + ·)

/-- The timers are distinct nodes with stored times. -/
structure Timers.Good (l : Timers) : Prop where
  stored : ∀ x ∈ l, x.2.Stored
  nodup : (l.map Prod.fst).Nodup

variable {l : Timers} {k id node : ℕ} {d ttl delta : CatTime}

theorem Timers.Good.tail (h : Timers.Good ((k,d) :: l)) : l.Good :=
  ⟨fun x hx => h.stored x (List.mem_cons_of_mem _ hx),(List.nodup_cons.1 h.nodup).2⟩

theorem Timers.Good.head (h : Timers.Good ((k,d) :: l)) : d.Stored := h.stored (k,d) List.mem_cons_self

theorem Timers.Good.fresh (h : Timers.Good ((k,d) :: l)) : k ∉ l.map Prod.fst := (List.nodup_cons.1 h.nodup).1

theorem Timers.Good.cons (h : l.Good) (hd : d.Stored) (hk : k ∉ l.map Prod.fst) : Timers.Good ((k,d) :: l) := by
  refine ⟨fun x hx => ?_,List.nodup_cons.2 ⟨hk,h.nodup⟩⟩
  rcases List.mem_cons.1 hx with rfl | hx
  · exact hd
  · exact h.stored x hx

theorem remaining_isSome : (remaining l id).isSome ↔ id ∈ l.map Prod.fst := by
  induction l with
  | nil => simp [remaining]
  | cons x l ih =>
    obtain ⟨k,d⟩ := x
    simp only [remaining, List.map_cons, List.mem_cons]
    split
    · simp_all
    · simp_all

theorem remaining_absent (h : id ∉ l.map Prod.fst) : remaining l id = none := by
  rw [← Option.not_isSome_iff_eq_none,remaining_isSome]
  exact h

theorem remaining_nonneg (hl : l.Good) {r : ℤ} (h : remaining l id = some r) : 0 ≤ r := by
  induction l generalizing r with
  | nil => cases h
  | cons x l ih =>
    obtain ⟨k,d⟩ := x
    have hd := hl.head.value_nonneg
    simp only [remaining] at h
    split at h
    · cases h
      exact hd
    · obtain ⟨q,hq,rfl⟩ := Option.map_eq_some_iff.1 h
      have := ih hl.tail hq
      omega

/-! ## The operations on remaining times -/

theorem insWalk_keys : ∀ x, x ∈ (insWalk node ttl l).map Prod.fst ↔ x = node ∨ x ∈ l.map Prod.fst := by
  induction l generalizing ttl with
  | nil => simp [insWalk]
  | cons y l ih =>
    obtain ⟨k,d⟩ := y
    intro x
    simp only [insWalk]
    split
    · simp
    · simp only [List.map_cons, List.mem_cons, ih]
      tauto

theorem insWalk_spec (hl : l.Good) (hn : node ∉ l.map Prod.fst) (ht : ttl.Proper) :
    (insWalk node ttl l).Good ∧
      ∀ id, remaining (insWalk node ttl l) id = if id = node then some ttl.value else remaining l id := by
  induction l generalizing ttl with
  | nil =>
    refine ⟨⟨fun x hx => ?_,by simp [insWalk]⟩,fun id => rfl⟩
    simp only [insWalk, List.mem_singleton] at hx
    rw [hx]
    exact ht.stored
  | cons y l ih =>
    obtain ⟨k,d⟩ := y
    have hd := hl.head
    have hnk : node ≠ k := fun e => hn (by simp [e])
    have hnl : node ∉ l.map Prod.fst := fun h => hn (by simp [h])
    rw [insWalk]
    split
    · rename_i h
      rw [tmCmp_neg ht hd] at h
      obtain ⟨hs,hv,-⟩ := tmSub_stored hd ht.stored h.le
      refine ⟨((hl.tail.cons hs hl.fresh).cons ht.stored hn),fun id => ?_⟩
      simp only [remaining]
      by_cases h1 : id = node
      · rw [if_pos h1,if_pos h1]
      · rw [if_neg h1,if_neg h1]
        by_cases h2 : id = k
        · rw [if_pos h2,if_pos h2,Option.map_some,hv]
          congr 1
          omega
        · rw [if_neg h2,if_neg h2,Option.map_map,hv]
          congr 1
          funext x
          simp only [Function.comp_apply]
          omega
    · rename_i h
      rw [tmCmp_neg ht hd] at h
      obtain ⟨-,hv,hp⟩ := tmSub_stored ht.stored hd (not_lt.1 h)
      obtain ⟨hg,hr⟩ := ih hl.tail hnl (hp ht)
      refine ⟨hg.cons hd ?_,fun id => ?_⟩
      · rw [insWalk_keys]
        rintro (h | h)
        · exact hnk h.symm
        · exact hl.fresh h
      · simp only [remaining, hr]
        by_cases h1 : id = node
        · rw [if_neg (fun e => hnk (h1.symm.trans e)),if_pos h1,if_pos h1,Option.map_some,hv]
          congr 1
          omega
        · rw [if_neg h1,if_neg h1]

theorem dlRemAt_spec (hl : l.Good) (hid : node ∈ l.map Prod.fst) (head : CatTime) :
    (dlRemAt node head l).timers.Good ∧
      (∀ x, x ∈ (dlRemAt node head l).timers.map Prod.fst ↔ x ≠ node ∧ x ∈ l.map Prod.fst) ∧
      ∀ id, remaining (dlRemAt node head l).timers id = if id = node then none else remaining l id := by
  induction l with
  | nil => simp at hid
  | cons y l ih =>
    obtain ⟨k,d⟩ := y
    have hd := hl.head
    have hkl := hl.fresh
    rw [dlRemAt]
    by_cases hk : k = node
    · subst hk
      rw [if_pos rfl]
      have hkeys : ∀ x, x ∈ l.map Prod.fst ↔ x ≠ k ∧ x ∈ ((k,d) :: l).map Prod.fst := by
        intro x
        rw [List.map_cons,List.mem_cons]
        exact ⟨fun h => ⟨fun e => hkl (e ▸ h),Or.inr h⟩,fun ⟨h1,h2⟩ => h2.resolve_left h1⟩
      cases l with
      | nil =>
        refine ⟨⟨nofun,List.nodup_nil⟩,hkeys,fun id => ?_⟩
        simp only [remaining]
        split <;> rfl
      | cons z l =>
        obtain ⟨k',d'⟩ := z
        obtain ⟨hs,hv⟩ := tmAdd_stored hl.tail.head hd
        refine ⟨hl.tail.tail.cons hs hl.tail.fresh,hkeys,fun id => ?_⟩
        by_cases h1 : id = k
        · rw [if_pos h1,h1]
          exact remaining_absent hkl
        · rw [if_neg h1]
          simp only [giveNext, remaining]
          rw [if_neg h1,hv]
          by_cases h2 : id = k'
          · rw [if_pos h2,if_pos h2,Option.map_some]
            congr 1
            omega
          · rw [if_neg h2,if_neg h2,Option.map_map]
            congr 1
            funext x
            simp only [Function.comp_apply]
            omega
    · rw [if_neg hk]
      have hid' : node ∈ l.map Prod.fst := by
        rw [List.map_cons,List.mem_cons] at hid
        exact hid.resolve_left fun e => hk e.symm
      obtain ⟨hg,hm,hr⟩ := ih hl.tail hid'
      refine ⟨hg.cons hd fun h => hkl ((hm k).1 h).2,fun x => ?_,fun id => ?_⟩
      · rw [List.map_cons,List.map_cons,List.mem_cons,List.mem_cons,hm]
        constructor
        · rintro (rfl | ⟨h1,h2⟩)
          · exact ⟨hk,Or.inl rfl⟩
          · exact ⟨h1,Or.inr h2⟩
        · rintro ⟨h1,rfl | h2⟩
          · exact Or.inl rfl
          · exact Or.inr ⟨h1,h2⟩
      · simp only [remaining, hr]
        by_cases h1 : id = node
        · rw [if_neg (fun e => hk (e.symm.trans h1)),if_pos h1,if_pos h1]
          rfl
        · rw [if_neg h1,if_neg h1]

theorem advWalk_append : ∀ delta, l.map Prod.fst = (advWalk delta l).1.map Prod.fst ++ (advWalk delta l).2.map Prod.fst := by
  induction l with
  | nil => exact fun _ => rfl
  | cons y l ih =>
    obtain ⟨k,d⟩ := y
    intro delta
    rw [advWalk]
    split
    · rfl
    · rw [List.map_cons,List.map_cons,List.cons_append,← ih]

/-- What an advance does: the timers that are due come out in order, the others lose the
amount. -/
structure Advanced (l : Timers) (amt : ℤ) (out rest : Timers) : Prop where
  good : rest.Good
  nodup : (out.map Prod.fst).Nodup
  due : ∀ id, id ∈ out.map Prod.fst ↔ ∃ r, remaining l id = some r ∧ r ≤ amt
  order : (out.map Prod.fst).Pairwise fun i j => ∀ r q, remaining l i = some r → remaining l j = some q → r ≤ q
  rest : ∀ id, remaining rest id = (remaining l id).bind fun r => if r ≤ amt then none else some (r - amt)

theorem advWalk_spec (hl : l.Good) (hd : delta.Proper) :
    Advanced l delta.value (advWalk delta l).1 (advWalk delta l).2 := by
  induction l generalizing delta with
  | nil => exact ⟨⟨nofun,List.nodup_nil⟩,List.nodup_nil,by simp [advWalk, remaining],List.Pairwise.nil,fun _ => rfl⟩
  | cons y l ih =>
    obtain ⟨k,d⟩ := y
    have hs := hl.head
    have hkl := hl.fresh
    have h0 := hs.value_nonneg
    rw [advWalk]
    split
    · -- nothing is due any more
      rename_i h
      rw [gt_iff_lt,← gt_iff_lt,tmCmp_pos hs hd] at h
      obtain ⟨hsub,hv,-⟩ := tmSub_stored hs hd.stored h.le
      have hlate : ∀ {id r}, remaining ((k,d) :: l) id = some r → delta.value < r := by
        intro id r hr
        simp only [remaining] at hr
        split at hr
        · cases hr
          exact h
        · obtain ⟨q,hq,rfl⟩ := Option.map_eq_some_iff.1 hr
          have := remaining_nonneg hl.tail hq
          omega
      refine ⟨hl.tail.cons hsub hkl,List.nodup_nil,fun id => ⟨nofun,?_⟩,List.Pairwise.nil,fun id => ?_⟩
      · rintro ⟨r,hr,hle⟩
        exact absurd (hlate hr) (not_lt.2 hle)
      · have hmoved : remaining ((k,tmSub d delta) :: l) id = (remaining ((k,d) :: l) id).map (· - delta.value) := by
          simp only [remaining]
          split
          · rw [hv]
            rfl
          · rw [Option.map_map,hv]
            congr 1
            funext x
            simp only [Function.comp_apply]
            omega
        rw [hmoved]
        cases hr : remaining ((k,d) :: l) id with
        | none => rfl
        | some r =>
          rw [Option.map_some,Option.bind_some,if_neg (not_le.2 (hlate hr))]
    · -- the first timer is due
      rename_i h
      have hle : d.value ≤ delta.value := by
        rw [← not_lt,← tmCmp_pos hs hd]
        exact h
      obtain ⟨-,hv,hp⟩ := tmSub_stored hd.stored hs hle
      obtain ⟨hg,hnd,hdue,hord,hrest⟩ := ih hl.tail (hp hd)
      have hkeys := advWalk_append (l := l) (tmSub delta d)
      have hout : ∀ {id}, id ∈ (advWalk (tmSub delta d) l).1.map Prod.fst → id ≠ k := by
        rintro id hid rfl
        exact hkl (by rw [hkeys]; exact List.mem_append_left _ hid)
      have hrem : ∀ {id}, id ≠ k → remaining ((k,d) :: l) id = (remaining l id).map (d.value + ·) := by
        intro id hid
        simp only [remaining]
        rw [if_neg hid]
      have hk : remaining ((k,d) :: l) k = some d.value := if_pos rfl
      refine ⟨hg,?_,fun id => ?_,?_,fun id => ?_⟩
      · rw [List.map_cons]
        exact List.nodup_cons.2 ⟨fun hid => hout hid rfl,hnd⟩
      · rw [List.map_cons,List.mem_cons]
        by_cases hid : id = k
        · subst hid
          exact ⟨fun _ => ⟨_,hk,hle⟩,fun _ => Or.inl rfl⟩
        · rw [hrem hid,or_iff_right hid,hdue]
          constructor
          · rintro ⟨r,hr,h1⟩
            exact ⟨d.value + r,by rw [hr]; rfl,by omega⟩
          · rintro ⟨r,hr,h1⟩
            obtain ⟨q,hq,rfl⟩ := Option.map_eq_some_iff.1 hr
            exact ⟨q,hq,by omega⟩
      · rw [List.map_cons]
        refine List.Pairwise.cons (fun j hj r q hr hq => ?_) (hord.imp_of_mem fun {i j} hi hj h r q hr hq => ?_)
        · rw [hk] at hr
          cases hr
          rw [hrem (hout hj)] at hq
          obtain ⟨p,hp',rfl⟩ := Option.map_eq_some_iff.1 hq
          have := remaining_nonneg hl.tail hp'
          omega
        · rw [hrem (hout hi)] at hr
          rw [hrem (hout hj)] at hq
          obtain ⟨r',hr',rfl⟩ := Option.map_eq_some_iff.1 hr
          obtain ⟨q',hq',rfl⟩ := Option.map_eq_some_iff.1 hq
          have := h r' q' hr' hq'
          omega
      · rw [hrest]
        by_cases hid : id = k
        · subst hid
          rw [hk,remaining_absent hkl,Option.bind_some,if_pos hle]
          rfl
        · rw [hrem hid]
          cases hr : remaining l id with
          | none => rfl
          | some r =>
            rw [Option.map_some,Option.bind_some,Option.bind_some,hv]
            by_cases h1 : r ≤ delta.value - d.value
            · rw [if_pos h1,if_pos (by omega)]
            · rw [if_neg h1,if_neg (by omega)]
              congr 1
              omega

end Catlib.Timer
