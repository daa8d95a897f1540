import Catlib.Rex.Groups
import Catlib.Rex.Match

/-! # The shape of the table of nodes

What the links of the table look like for every pattern that the parser can read, the slips
included: the lists in a closed group lead to its end, and a group that is open has a list up
to the link that waits for the next node. Outside of all groups an alternative may end at a
null pointer, because a group that is closed there makes the parser forget the last choice.
-/
namespace Catlib.Rex

variable {ns ns' : List RexNode} {n m : RexNode} {b : Bool} {l r s : Loc} {o o' : Option Loc} {i j k g c d lo lo' hi hi' : ℕ}

/-! ## Nodes without their links -/

def RexNode.core (n : RexNode) : RexNode := { n with next := none, opt1 := none, opt2 := none }

def coreOf (ns : List RexNode) (i : ℕ) : Option RexNode := (ns[i]?).map (·.core)

@[simp] theorem coreOf_setLink (o : Option ℕ) : coreOf (setLink ns o l) i = coreOf ns i := by
  cases l <;> simp only [coreOf, setLink, List.getElem?_modify] <;> split <;> cases ns[i]? <;> simp_all [RexNode.core]

theorem coreOf_concat : coreOf (ns ++ [n]) i = if i = ns.length then some n.core else coreOf ns i := by
  simp only [coreOf, List.getElem?_append, List.getElem?_singleton]
  grind

theorem coreOf_grow : coreOf (grow ns r n) i = if i = ns.length then some n.core else coreOf ns i := by
  rw [grow,coreOf_concat,length_setLink,coreOf_setLink]

theorem coreOf_branch (o : Option ℕ) :
    coreOf (branch ns s r o) i = if i = ns.length then some { type := .choice } else coreOf ns i := by
  rw [branch,coreOf_concat,length_setLink,length_setLink,coreOf_setLink,coreOf_setLink]
  rfl

theorem typeOf_core : typeOf ns i = (coreOf ns i).map (·.type) := by
  rw [typeOf,coreOf]
  cases ns[i]? <;> rfl

theorem typeOf_congr (h : coreOf ns' i = coreOf ns i) : typeOf ns' i = typeOf ns i := by
  rw [typeOf_core,typeOf_core,h]

theorem node_of_core (h : coreOf ns i = some m) : ∃ n, ns[i]? = some n ∧ n.core = m := Option.map_eq_some_iff.1 h

/-- A node that stands alone: a string that is not empty, a class or an anchor. -/
def Lone (n : RexNode) : Prop := n.type = .string ∧ n.str ≠ [] ∨ n.type = .cls ∨ n.type = .banchor ∨ n.type = .eanchor

theorem Lone.ne_choice (h : Lone n) : n.type ≠ .choice := by
  rcases h with ⟨h,-⟩ | h | h | h <;> rw [h] <;> exact nofun

theorem Lone.ne_groupS (h : Lone n) : n.type ≠ .groupS := by
  rcases h with ⟨h,-⟩ | h | h | h <;> rw [h] <;> exact nofun

/-- Two nodes begin and end a group. -/
def Paired (ns : List RexNode) (i j : ℕ) : Prop := ∃ rgs rge, Group ns i j rgs rge

theorem Paired.congr (h : Paired ns i j) (hi : coreOf ns' i = coreOf ns i) (hj : coreOf ns' j = coreOf ns j) : Paired ns' i j := by
  obtain ⟨rgs,rge,hg⟩ := h
  rw [coreOf,coreOf,hg.start] at hi
  rw [coreOf,coreOf,hg.stop] at hj
  obtain ⟨n,hn,hni⟩ := Option.map_eq_some_iff.1 hi
  obtain ⟨m,hm,hmj⟩ := Option.map_eq_some_iff.1 hj
  simp only [RexNode.core, RexNode.mk.injEq, true_and] at hni hmj
  obtain ⟨h1,h2,h3,-,-,h4,h5⟩ := hni
  obtain ⟨h1',h2',h3',-,-,h4',h5'⟩ := hmj
  exact ⟨n,m,hn,hm,h1.trans hg.groupS,h1'.trans hg.groupE,h5.trans hg.forth,h5'.trans hg.back,
    (h4'.trans hg.num).trans h4.symm,(h2'.trans hg.repmin).trans h2.symm,(h3'.trans hg.repmax).trans h3.symm⟩

theorem Paired.type (h : Paired ns i j) : typeOf ns i = some .groupS := by
  obtain ⟨rgs,rge,hg⟩ := h
  rw [typeOf,hg.start]
  exact congrArg some hg.groupS

/-! ## Lists of nodes -/

/-- From a link on, every way through nodes between `lo` and `hi` comes to the node `j`; on a loose
list it may come to a null pointer. -/
inductive Leads (ns : List RexNode) : Bool → ℕ → ℕ → Loc → ℕ → Prop
  | done {b : Bool} {lo hi j : ℕ} {l : Loc} (hl : link ns l = some j) : Leads ns b lo hi l j
  | null {lo hi j : ℕ} {l : Loc} (hl : link ns l = none) : Leads ns true lo hi l j
  | lone {b : Bool} {lo hi i j : ℕ} {l : Loc} {n : RexNode} (hl : link ns l = some i) (hin : lo < i ∧ i < hi)
      (hn : coreOf ns i = some n) (ht : Lone n) (h : Leads ns b lo hi (.next i) j) : Leads ns b lo hi l j
  | choice {b : Bool} {lo hi c j : ℕ} {l : Loc} (hl : link ns l = some c) (hc : lo < c ∧ c < hi)
      (ht : typeOf ns c = some .choice) (hn : b = false → link ns (.next c) = some j) (h1 : Leads ns b lo hi (.opt1 c) j)
      (h2 : Leads ns b lo hi (.opt2 c) j) : Leads ns b lo hi l j
  | group {b : Bool} {lo hi i k j : ℕ} {l : Loc} (hl : link ns l = some i) (hin : lo < i ∧ i < k ∧ k < hi) (hg : Paired ns i k)
      (hb : Leads ns false lo hi (.next i) k) (h : Leads ns b lo hi (.next k) j) : Leads ns b lo hi l j

/-- From a link on, the list comes to the link `r`, if there is one. A loose list may have choices,
and null pointers at other ends. -/
inductive Part (ns : List RexNode) : Bool → ℕ → ℕ → Option Loc → Loc → Prop
  | hole {b : Bool} {lo hi : ℕ} {l : Loc} : Part ns b lo hi (some l) l
  | null {lo hi : ℕ} {r : Option Loc} {l : Loc} (hl : link ns l = none) : Part ns true lo hi r l
  | lone {b : Bool} {lo hi i : ℕ} {r : Option Loc} {l : Loc} {n : RexNode} (hl : link ns l = some i) (hin : lo < i ∧ i < hi)
      (hn : coreOf ns i = some n) (ht : Lone n) (h : Part ns b lo hi r (.next i)) : Part ns b lo hi r l
  | choice {lo hi c : ℕ} {r : Option Loc} {l : Loc} (hl : link ns l = some c) (hc : lo < c ∧ c < hi) (ht : typeOf ns c = some .choice)
      (hn : link ns (.next c) = none) (h1 : Part ns true lo hi r (.opt1 c)) (h2 : Part ns true lo hi r (.opt2 c)) :
      Part ns true lo hi r l
  | group {b : Bool} {lo hi i k : ℕ} {r : Option Loc} {l : Loc} (hl : link ns l = some i) (hin : lo < i ∧ i < k ∧ k < hi) (hg : Paired ns i k)
      (hb : Leads ns false lo hi (.next i) k) (h : Part ns b lo hi r (.next k)) : Part ns b lo hi r l

/-- What the nodes between `lo` and `hi` lead to stays; the second alternative of a choice of an open
group need not. -/
structure Extends (ns ns' : List RexNode) (lo hi : ℕ) : Prop where
  core : ∀ i, lo < i → i < hi → coreOf ns' i = coreOf ns i
  link : ∀ l v, lo < l.idx → l.idx < hi → link ns l = some v →
    link ns' l = some v ∨ ∃ c, l = .opt2 c ∧ Rex.link ns (.next c) = none

theorem Leads.extend (h : Leads ns false lo hi l j) (he : Extends ns ns' lo hi)
    (hl : ∀ v, link ns l = some v → link ns' l = some v) (hlo : lo' ≤ lo) (hhi : hi ≤ hi') : Leads ns' false lo' hi' l j := by
  generalize hb : false = b at h
  induction h generalizing lo' hi' with
  | done h => exact .done (hl _ h)
  | null => cases hb
  | @lone b lo hi i j l n h hin hn ht _ ih =>
    refine .lone (hl _ h) (by omega) ((he.core i hin.1 hin.2).trans hn) ht (ih he ?_ hlo hhi hb)
    exact fun v hv => (he.link (.next i) v hin.1 hin.2 hv).resolve_right nofun
  | @choice b lo hi c j l h hc ht hn _ _ ih1 ih2 =>
    have hnext := hn hb.symm
    have hkeep : ∀ l', l'.idx = c → ∀ v, Rex.link ns l' = some v → Rex.link ns' l' = some v := by
      intro l' hl' v hv
      rcases he.link l' v (by omega) (by omega) hv with h | ⟨c',rfl,hnone⟩
      · exact h
      · rw [show c' = c from hl',hnext] at hnone
        cases hnone
    exact .choice (hl _ h) (by omega) ((typeOf_congr (he.core c hc.1 hc.2)).trans ht) (fun _ => hkeep (.next c) rfl _ hnext)
      (ih1 he (hkeep _ rfl) hlo hhi hb) (ih2 he (hkeep _ rfl) hlo hhi hb)
  | @group b lo hi i k j l h hin hg _ _ ihb ih =>
    refine .group (hl _ h) (by omega) (hg.congr (he.core i (by omega) (by omega)) (he.core k (by omega) (by omega)))
      (ihb he ?_ hlo hhi rfl) (ih he ?_ hlo hhi hb)
    · exact fun v hv => (he.link (.next i) v (show lo < i by omega) (show i < hi by omega) hv).resolve_right nofun
    · exact fun v hv => (he.link (.next k) v (show lo < k by omega) (show k < hi by omega) hv).resolve_right nofun

theorem Leads.frame (h : Leads ns b lo hi l j) (hcore : ∀ i, lo < i → i < hi → coreOf ns' i = coreOf ns i)
    (hlink : ∀ l : Loc, lo < l.idx → l.idx < hi → link ns' l = link ns l) (hl : link ns' l = link ns l) : Leads ns' b lo hi l j := by
  induction h with
  | done h => exact .done (hl.trans h)
  | null h => exact .null (hl.trans h)
  | lone h hin hn ht _ ih =>
    exact .lone (hl.trans h) hin ((hcore _ hin.1 hin.2).trans hn) ht (ih hcore hlink (hlink (.next _) hin.1 hin.2))
  | choice h hin ht hn _ _ ih1 ih2 =>
    exact .choice (hl.trans h) hin ((typeOf_congr (hcore _ hin.1 hin.2)).trans ht)
      (fun hb => (hlink (.next _) hin.1 hin.2).trans (hn hb)) (ih1 hcore hlink (hlink (.opt1 _) hin.1 hin.2))
      (ih2 hcore hlink (hlink (.opt2 _) hin.1 hin.2))
  | @group b lo hi i k j l h hin hg _ _ ihb ih =>
    exact .group (hl.trans h) hin (hg.congr (hcore i (by omega) (by omega)) (hcore k (by omega) (by omega)))
      (ihb hcore hlink (hlink (.next i) (show lo < i by omega) (show i < hi by omega)))
      (ih hcore hlink (hlink (.next k) (show lo < k by omega) (show k < hi by omega)))

theorem Leads.loosen (h : Leads ns false lo hi l j) : Leads ns b lo hi l j := by
  generalize hb : false = b' at h
  induction h with
  | done h => exact .done h
  | null => cases hb
  | lone h hin hn ht _ ih => exact .lone h hin hn ht (ih hb)
  | choice h hc ht hn _ _ ih1 ih2 => exact .choice h hc ht (fun _ => hn hb.symm) (ih1 hb) (ih2 hb)
  | group h hin hg hb' _ _ ih => exact .group h hin hg hb' (ih hb)

theorem Leads.mono (h : Leads ns b lo hi l j) (hlo : lo' ≤ lo) (hhi : hi ≤ hi') : Leads ns b lo' hi' l j := by
  induction h generalizing lo' hi' with
  | done h => exact .done h
  | null h => exact .null h
  | lone h hin hn ht _ ih => exact .lone h (by omega) hn ht (ih hlo hhi)
  | choice h hc ht hn _ _ ih1 ih2 => exact .choice h (by omega) ht hn (ih1 hlo hhi) (ih2 hlo hhi)
  | group h hin hg _ _ ihb ih => exact .group h (by omega) hg (ihb hlo hhi) (ih hlo hhi)

/-- The nodes between `lo` and `hi` keep their links, but for the link that waits. -/
structure Keeps (ns ns' : List RexNode) (o : Option Loc) (lo hi : ℕ) : Prop where
  core : ∀ i, lo < i → i < hi → coreOf ns' i = coreOf ns i
  link : ∀ l, lo < l.idx → l.idx < hi → some l ≠ o → link ns' l = link ns l
  hole : ∀ r v, o = some r → Rex.link ns r = some v → Rex.link ns' r = some v

theorem Keeps.extends (h : Keeps ns ns' o lo hi) : Extends ns ns' lo hi := by
  refine ⟨h.core,fun l v h1 h2 hl => Or.inl ?_⟩
  by_cases hr : some l = o
  · exact h.hole l v hr.symm hl
  · exact (h.link l h1 h2 hr).trans hl

theorem Part.frame (h : Part ns b lo hi o l) (hk : Keeps ns ns' o lo hi)
    (hc : b = true → ∀ c, o = some (.next c) → typeOf ns c = some .choice → link ns' (.next c) = link ns (.next c))
    (hl : some l ≠ o → link ns' l = link ns l) (hlo : lo' ≤ lo) (hhi : hi ≤ hi') : Part ns' b lo' hi' o l := by
  induction h generalizing lo' hi' with
  | hole => exact .hole
  | @null lo hi o l h =>
    by_cases hr : some l = o
    · rw [← hr]
      exact .hole
    · exact .null ((hl hr).trans h)
  | @lone b lo hi i o l n h hin hn ht _ ih =>
    by_cases hr : some l = o
    · rw [← hr]
      exact .hole
    · exact .lone ((hl hr).trans h) (by omega) ((hk.core i hin.1 hin.2).trans hn) ht (ih hk hc (hk.link (.next i) hin.1 hin.2) hlo hhi)
  | @choice lo hi c o l h hin ht hn _ _ ih1 ih2 =>
    by_cases hr : some l = o
    · rw [← hr]
      exact .hole
    have hn' : link ns' (.next c) = none := by
      by_cases hr' : some (.next c) = o
      · exact (hc rfl c hr'.symm ht).trans hn
      · exact (hk.link (.next c) hin.1 hin.2 hr').trans hn
    exact .choice ((hl hr).trans h) (by omega) ((typeOf_congr (hk.core c hin.1 hin.2)).trans ht) hn'
      (ih1 hk hc (hk.link (.opt1 c) hin.1 hin.2) hlo hhi) (ih2 hk hc (hk.link (.opt2 c) hin.1 hin.2) hlo hhi)
  | @group b lo hi i k o l h hin hg hb _ ih =>
    by_cases hr : some l = o
    · rw [← hr]
      exact .hole
    · refine .group ((hl hr).trans h) (by omega) (hg.congr (hk.core i (by omega) (by omega)) (hk.core k (by omega) (by omega)))
        (hb.extend hk.extends ?_ hlo hhi) (ih hk hc (hk.link (.next k) (show lo < k by omega) (show k < hi by omega)) hlo hhi)
      exact fun v hv => (hk.extends.link (.next i) v (show lo < i by omega) (show i < hi by omega) hv).resolve_right nofun

theorem Part.plug (h : Part ns b lo hi (some r) l) (h' : Part ns b lo hi o r) : Part ns b lo hi o l := by
  generalize hr : some r = o' at h
  induction h with
  | hole =>
    cases hr
    exact h'
  | null h => exact .null h
  | lone h hin hn ht _ ih => exact .lone h hin hn ht (ih h' hr)
  | choice h hc ht hn _ _ ih1 ih2 => exact .choice h hc ht hn (ih1 h' hr) (ih2 h' hr)
  | group h hin hg hb _ ih => exact .group h hin hg hb (ih h' hr)

theorem Part.loosen (h : Part ns false lo hi o l) : Part ns b lo hi o l := by
  generalize hb : false = b' at h
  induction h with
  | hole => exact .hole
  | null => cases hb
  | lone h hin hn ht _ ih => exact .lone h hin hn ht (ih hb)
  | choice => cases hb
  | group h hin hg hb' _ ih => exact .group h hin hg hb' (ih hb)

theorem Part.restart (h : Part ns b lo hi o l) (hk : Keeps ns ns' o lo hi)
    (hc : b = true → ∀ c, o = some (.next c) → typeOf ns c = some .choice → link ns' (.next c) = link ns (.next c))
    (hl : some l ≠ o) (he : link ns' s = link ns l) : Part ns' b lo hi o s := by
  cases h with
  | hole => exact absurd rfl hl
  | null h => exact .null (he.trans h)
  | lone h hin hn ht h' =>
    exact .lone (he.trans h) hin ((hk.core _ hin.1 hin.2).trans hn) ht (h'.frame hk hc (hk.link (.next _) hin.1 hin.2) le_rfl le_rfl)
  | @choice _ _ c _ _ h hin ht hn h1 h2 =>
    have hn' : link ns' (.next c) = none := by
      by_cases hr' : some (.next c) = o
      · exact (hc rfl c hr'.symm ht).trans hn
      · exact (hk.link (.next c) hin.1 hin.2 hr').trans hn
    exact .choice (he.trans h) hin ((typeOf_congr (hk.core _ hin.1 hin.2)).trans ht) hn'
      (h1.frame hk hc (hk.link (.opt1 _) hin.1 hin.2) le_rfl le_rfl) (h2.frame hk hc (hk.link (.opt2 _) hin.1 hin.2) le_rfl le_rfl)
  | @group _ _ _ i k _ _ h hin hg hb h' =>
    refine .group (he.trans h) hin (hg.congr (hk.core i (by omega) (by omega)) (hk.core k (by omega) (by omega)))
      (hb.extend hk.extends ?_ le_rfl le_rfl)
      (h'.frame hk hc (hk.link (.next k) (show lo < k by omega) (show k < hi by omega)) le_rfl le_rfl)
    exact fun v hv => (hk.extends.link (.next i) v (show lo < i by omega) (show i < hi by omega) hv).resolve_right nofun

theorem Part.seal (h : Part ns b lo hi (some r) l) (hr : link ns r = none) : Part ns true lo hi o l :=
  Part.plug (by cases b; exacts [h.loosen,h]) (.null hr)

theorem Part.mono (h : Part ns b lo hi o l) (hlo : lo' ≤ lo) (hhi : hi ≤ hi') : Part ns b lo' hi' o l := by
  induction h generalizing lo' hi' with
  | hole => exact .hole
  | null h => exact .null h
  | lone h hin hn ht _ ih => exact .lone h (by omega) hn ht (ih hlo hhi)
  | choice h hc ht hn _ _ ih1 ih2 => exact .choice h (by omega) ht hn (ih1 hlo hhi) (ih2 hlo hhi)
  | group h hin hg hb _ ih => exact .group h (by omega) hg (hb.mono hlo hhi) (ih hlo hhi)

theorem Part.anywhere (h : Part ns b lo hi none l) : Part ns b lo hi o l := by
  generalize ho : none = o' at h
  induction h with
  | hole => cases ho
  | null h => exact .null h
  | lone h hin hn ht _ ih => exact .lone h hin hn ht (ih ho)
  | choice h hc ht hn _ _ ih1 ih2 => exact .choice h hc ht hn (ih1 ho) (ih2 ho)
  | group h hin hg hb _ ih => exact .group h hin hg hb (ih ho)

theorem Part.end_mem (h : Part ns false lo hi (some r) l) : r = l ∨ lo < r.idx ∧ r.idx < hi := by
  generalize hb : false = b at h
  generalize ho : some r = o at h
  induction h with
  | hole =>
    cases ho
    exact Or.inl rfl
  | null => cases hb
  | @lone b lo hi i o l n _ hin _ _ _ ih =>
    rcases ih hb ho with rfl | h
    · exact Or.inr hin
    · exact Or.inr h
  | choice => cases hb
  | @group b lo hi i k o l _ hin _ _ _ ih =>
    rcases ih hb ho with rfl | h
    · exact Or.inr ⟨show lo < k by omega,show k < hi by omega⟩
    · exact Or.inr h

theorem Part.leads (h : Part ns b lo hi o l) (hr : ∀ r, o = some r → link ns r = some j ∨ b = true ∧ link ns r = none) :
    Leads ns b lo hi l j := by
  induction h with
  | hole =>
    rcases hr _ rfl with h | ⟨rfl,h⟩
    · exact .done h
    · exact .null h
  | null h => exact .null h
  | lone h hin hn ht _ ih => exact .lone h hin hn ht (ih hr)
  | choice h hc ht hn _ _ ih1 ih2 => exact .choice h hc ht nofun (ih1 hr) (ih2 hr)
  | group h hin hg hb _ ih => exact .group h hin hg hb (ih hr)

/-! ## The end of a group -/

theorem link_of_getLink {o : Option ℕ} (h : getLink ns l = some o) : link ns l = o := by
  have hget : getLink ns l = (ns[l.idx]?).map fun n => n.link l := by cases l <;> rfl
  rw [hget] at h
  obtain ⟨n,hn,rfl⟩ := Option.map_eq_some_iff.1 h
  rw [link,hn]
  rfl

theorem trav_step {f : ℕ} {t : Loc} (h : loop (travBody ns) f l = some t) :
    (link ns l = none ∧ t = l) ∨ ∃ f' j, link ns l = some j ∧ loop (travBody ns) f' (.next j) = some t := by
  cases f with
  | zero => cases h
  | succ f =>
    cases hg : getLink ns l with
    | none => simp [loop, travBody, hg] at h
    | some o =>
      have hl := link_of_getLink hg
      cases o with
      | none =>
        rw [loop_leave (r := l) (by rw [travBody,hg]; rfl)] at h
        cases h
        exact Or.inl ⟨hl,rfl⟩
      | some j =>
        rw [loop_again (t := .next j) (by rw [travBody,hg]; rfl)] at h
        exact Or.inr ⟨f,j,hl,h⟩

theorem trav_some {f : ℕ} {t : Loc} (h : loop (travBody ns) f l = some t) (hl : link ns l = some j) :
    ∃ f', loop (travBody ns) f' (.next j) = some t := by
  rcases trav_step h with ⟨hn,-⟩ | ⟨f',j',hj,h'⟩
  · rw [hl] at hn
    cases hn
  · rw [hl] at hj
    cases hj
    exact ⟨f',h'⟩

theorem trav_none {f : ℕ} {t : Loc} (h : loop (travBody ns) f l = some t) (hl : link ns l = none) : t = l := by
  rcases trav_step h with ⟨-,ht⟩ | ⟨f',j',hj,-⟩
  · exact ht
  · rw [hl] at hj
    cases hj

theorem Leads.trav (h : Leads ns false lo hi l j) {f : ℕ} {t : Loc} (ht : loop (travBody ns) f l = some t) :
    ∃ f', loop (travBody ns) f' (.next j) = some t := by
  generalize hb : false = b at h
  induction h generalizing f with
  | done h => exact trav_some ht h
  | null => cases hb
  | lone h _ _ _ _ ih =>
    obtain ⟨f',ht'⟩ := trav_some ht h
    exact ih ht' hb
  | choice h _ _ hn =>
    obtain ⟨f',ht'⟩ := trav_some ht h
    exact trav_some ht' (hn hb.symm)
  | group h _ _ _ _ ihb ih =>
    obtain ⟨f',ht'⟩ := trav_some ht h
    obtain ⟨f'',ht''⟩ := ihb ht' rfl
    exact ih ht'' hb

theorem Part.trav (h : Part ns b lo hi o l) (hr : ∀ r, o = some r → link ns r = none) {f : ℕ} {t : Loc}
    (ht : loop (travBody ns) f l = some t) : link ns t = none ∧ (t = l ∨ lo < t.idx ∧ t.idx < hi) ∧ (b = false → o = some t) := by
  induction h generalizing f with
  | hole =>
    rw [trav_none ht (hr _ rfl)]
    exact ⟨hr _ rfl,Or.inl rfl,fun _ => rfl⟩
  | null h =>
    rw [trav_none ht h]
    exact ⟨h,Or.inl rfl,nofun⟩
  | @lone b lo hi i o l n h hin _ _ _ ih =>
    obtain ⟨f',ht'⟩ := trav_some ht h
    obtain ⟨h1,h2,h3⟩ := ih hr ht'
    exact ⟨h1,Or.inr (h2.elim (fun e => by rw [e]; exact hin) id),h3⟩
  | @choice lo hi c o l h hc _ hn =>
    obtain ⟨f',ht'⟩ := trav_some ht h
    rw [trav_none ht' hn]
    exact ⟨hn,Or.inr hc,nofun⟩
  | @group b lo hi i k o l h hin _ hb _ ih =>
    obtain ⟨f',ht'⟩ := trav_some ht h
    obtain ⟨f'',ht''⟩ := hb.trav ht'
    obtain ⟨h1,h2,h3⟩ := ih hr ht''
    exact ⟨h1,Or.inr (h2.elim (fun e => by rw [e]; exact ⟨show lo < k by omega,show k < hi by omega⟩) id),h3⟩

/-- An alternative that is not the last: a choice holds it, and it ends in front of the choice. A
loose one ends at null pointers. -/
structure Arm (ns : List RexNode) (b : Bool) (lo c : ℕ) : Prop where
  lt : lo < c
  type : typeOf ns c = some .choice
  next : link ns (.next c) = none
  list : b = true ∧ Part ns true lo c none (.opt1 c) ∨
    ∃ r, Part ns false lo c (some r) (.opt1 c) ∧ link ns r = none ∧ lo < r.idx ∧ r.idx < c

/-- The choices of a group that is open, the last of which is `c`; the first alternative may be loose. -/
inductive Arms (ns : List RexNode) : Bool → ℕ → Loc → ℕ → Prop
  | last {b : Bool} {lo c : ℕ} {l : Loc} (hl : link ns l = some c) (ha : Arm ns b lo c) : Arms ns b lo l c
  | cons {b : Bool} {lo h c : ℕ} {l : Loc} (hl : link ns l = some h) (ha : Arm ns b lo h) (hc : Arms ns false h (.opt2 h) c) :
      Arms ns b lo l c

theorem Arms.lt (h : Arms ns b lo l c) : lo < c := by
  induction h with
  | last _ ha => exact ha.lt
  | cons _ ha _ ih => exact ha.lt.trans ih

theorem Arms.start (h : Arms ns b lo l c) : ∃ h', link ns l = some h' := by
  cases h with
  | last hl => exact ⟨_,hl⟩
  | cons hl => exact ⟨_,hl⟩

theorem Arm.frame (h : Arm ns b lo c) (hcore : ∀ i, lo < i → i ≤ c → coreOf ns' i = coreOf ns i)
    (hlink : ∀ l, lo < l.idx → l.idx ≤ c → l ≠ .opt2 c → link ns' l = link ns l) : Arm ns' b lo c := by
  have hlt := h.lt
  refine ⟨hlt,(typeOf_congr (hcore c hlt le_rfl)).trans h.type,(hlink (.next c) hlt le_rfl nofun).trans h.next,?_⟩
  have hin : ∀ l, lo < l.idx → l.idx < c → link ns' l = link ns l := by
    refine fun l h1 h2 => hlink l h1 h2.le ?_
    rintro rfl
    exact lt_irrefl _ h2
  have hl : link ns' (.opt1 c) = link ns (.opt1 c) := hlink (.opt1 c) hlt le_rfl nofun
  rcases h.list with ⟨hb,hp⟩ | ⟨r,hp,hr,hlo,hhi⟩
  · refine Or.inl ⟨hb,hp.frame ⟨fun i h1 h2 => hcore i h1 h2.le,fun l h1 h2 _ => hin l h1 h2,nofun⟩ (fun _ => nofun)
      (fun _ => hl) le_rfl le_rfl⟩
  · have hr' := hin r hlo hhi
    have hk : Keeps ns ns' (some r) lo c := by
      refine ⟨fun i h1 h2 => hcore i h1 h2.le,fun l h1 h2 _ => hin l h1 h2,?_⟩
      rintro r v ⟨⟩ hv
      exact hr'.trans hv
    exact Or.inr ⟨r,hp.frame hk nofun (fun _ => hl) le_rfl le_rfl,hr'.trans hr,hlo,hhi⟩

theorem Arms.frame (h : Arms ns b lo l c) (hcore : ∀ i, lo < i → i ≤ c → coreOf ns' i = coreOf ns i)
    (hlink : ∀ l, lo < l.idx → l.idx ≤ c → l ≠ .opt2 c → link ns' l = link ns l) (hl : link ns' l = link ns l) :
    Arms ns' b lo l c := by
  induction h with
  | last h ha => exact .last (hl.trans h) (ha.frame hcore hlink)
  | @cons b lo h' c l h ha hc ih =>
    have hlt := ha.lt
    have hlt' := hc.lt
    have hne : ∀ l : Loc, l.idx ≤ h' → l ≠ .opt2 c := by
      rintro _ hle rfl
      exact absurd hle (not_le.2 hlt')
    refine .cons (hl.trans h) (ha.frame (fun i h1 h2 => hcore i h1 (by omega)) fun l h1 h2 _ => hlink l h1 (by omega) (hne l h2)) ?_
    exact ih (fun i h1 => hcore i (by omega)) (fun l h1 => hlink l (by omega)) (hlink (.opt2 h') hlt hlt'.le (hne _ le_rfl))

theorem Arms.snoc (h : Arms ns b lo l c) (hl : link ns (.opt2 c) = some d) (ha : Arm ns false c d) : Arms ns b lo l d := by
  induction h with
  | last h ha' => exact .cons h ha' (.last hl ha)
  | cons h ha' _ ih => exact .cons h ha' (ih hl ha)

theorem Arm.part (h : Arm ns b lo c) (hlo : lo' ≤ lo) (hhi : c ≤ hi) : Part ns true lo' hi o (.opt1 c) := by
  rcases h.list with ⟨-,hp⟩ | ⟨r,hp,hr,-⟩
  · exact hp.anywhere.mono hlo hhi
  · exact (hp.seal hr).mono hlo hhi

theorem Arms.part (h : Arms ns b lo l c) (hp : Part ns true lo' hi o (.opt2 c)) (hlo : lo' ≤ lo) (hhi : c < hi) :
    Part ns true lo' hi o l := by
  induction h with
  | last h ha =>
    have hlt := ha.lt
    exact .choice h (by omega) ha.type ha.next (ha.part hlo hhi.le) hp
  | cons h ha hc ih =>
    have hlt := ha.lt
    have hlt' := hc.lt
    exact .choice h (by omega) ha.type ha.next (ha.part hlo (by omega)) (ih hp (by omega) hhi)

theorem Part.filled (h : Part ns true lo hi none l) (hcore : ∀ i, lo < i → i < hi → coreOf ns' i = coreOf ns i)
    (hlink : ∀ l, lo < l.idx → l.idx < hi → link ns' l = link ns l ∨ link ns l = none ∧ link ns' l = some j)
    (hl : link ns' l = link ns l ∨ link ns l = none ∧ link ns' l = some j) (hhi : hi ≤ hi') : Leads ns' true lo hi' l j := by
  have hsome : ∀ {l v}, link ns' l = link ns l ∨ link ns l = none ∧ link ns' l = some j → link ns l = some v → link ns' l = some v := by
    intro l v h hv
    rcases h with h | ⟨h,-⟩
    · exact h.trans hv
    · rw [hv] at h
      cases h
  generalize hb : true = b at h ⊢
  generalize ho : none = o at h
  induction h with
  | hole => cases ho
  | null h =>
    rcases hl with hl | ⟨-,hl⟩
    · exact .null (hl.trans h)
    · exact .done hl
  | @lone b lo hi i o l n h hin hn ht _ ih =>
    exact .lone (hsome hl h) (by omega) ((hcore i hin.1 hin.2).trans hn) ht (ih hcore hlink (hlink (.next i) hin.1 hin.2) hhi hb ho)
  | @choice lo hi c o l h hc ht _ _ _ ih1 ih2 =>
    exact .choice (hsome hl h) (by omega) ((typeOf_congr (hcore c hc.1 hc.2)).trans ht) nofun
      (ih1 hcore hlink (hlink (.opt1 c) hc.1 hc.2) hhi rfl ho) (ih2 hcore hlink (hlink (.opt2 c) hc.1 hc.2) hhi rfl ho)
  | @group b lo hi i k o l h hin hg hb' _ ih =>
    have he : Extends ns ns' lo hi := ⟨hcore,fun l v h1 h2 hv => Or.inl (hsome (hlink l h1 h2) hv)⟩
    have hbody := hb'.extend he (fun v hv => hsome (hlink (.next i) (show lo < i by omega) (show i < hi by omega)) hv) le_rfl hhi
    exact .group (hsome hl h) (by omega) (hg.congr (hcore i (by omega) (by omega)) (hcore k (by omega) (by omega))) hbody
      (ih hcore hlink (hlink (.next k) (show lo < k by omega) (show k < hi by omega)) hhi hb ho)

/-- What the end of a group does with one choice. -/
structure Closes (ns ns' : List RexNode) (b : Bool) (lo c j : ℕ) : Prop where
  length : ns'.length = ns.length
  core : ∀ i, coreOf ns' i = coreOf ns i
  others : ∀ l : Loc, l.idx ≤ lo ∨ c < l.idx ∨ l = .opt2 c → link ns' l = link ns l
  next : link ns' (.next c) = some j
  list : Leads ns' b lo c (.opt1 c) j

theorem finalizeBody_arm (h : Arm ns b lo c) {t : ℕ} (hf : finalizeBody j (ns,c) = some (.again (ns',t))) :
    link ns (.opt2 c) = some t ∧ Closes ns ns' b lo c j := by
  obtain ⟨n,hn,htype,-⟩ := node_of_type h.type
  have hc := typeOf_lt h.type
  have hlt := h.lt
  simp only [finalizeBody, hn, htype, Option.bind_eq_bind, Option.bind_some, if_true, Option.bind_eq_some_iff] at hf
  obtain ⟨t,ht,rc,hrc,t',ht',hf⟩ := hf
  obtain ⟨rfl,rfl⟩ := Prod.mk.inj (Turn.again.inj (Option.some.inj hf))
  -- the choice itself, then the end of its alternative
  have h1 : ∀ l, link (setLink ns (some j) (.next c)) l = if l = .next c then some j else link ns l := link_setLink _ hc
  have hcore1 : ∀ i, coreOf (setLink ns (some j) (.next c)) i = coreOf ns i := fun i => coreOf_setLink _
  have hlen1 : (setLink ns (some j) (.next c)).length = ns.length := length_setLink _
  generalize setLink ns (some j) (.next c) = ns1 at *
  have hin : ∀ l : Loc, l.idx < c → link ns1 l = link ns l := by
    intro l hl
    rw [h1,if_neg]
    rintro rfl
    exact lt_irrefl _ hl
  have hopt : link ns1 (.opt1 c) = link ns (.opt1 c) := (h1 _).trans (if_neg (by rintro ⟨⟩))
  have hend : link ns1 t = none ∧ (t = .opt1 c ∨ lo < t.idx ∧ t.idx < c) ∧
      ∀ hb : b = false, Part ns1 false lo c (some t) (.opt1 c) := by
    rcases h.list with ⟨hb,hp⟩ | ⟨r,hp,hr,hlo,hhi⟩
    · have hp1 := hp.frame ⟨fun i _ _ => hcore1 i,fun l _ hl _ => hin l hl,by rintro _ _ ⟨⟩⟩ (by rintro _ _ ⟨⟩) (fun _ => hopt) le_rfl le_rfl
      obtain ⟨h1,h2,-⟩ := hp1.trav (by rintro _ ⟨⟩) ht
      exact ⟨h1,h2,fun hb' => by rw [hb] at hb'; cases hb'⟩
    · have hr' := hin r hhi
      have hp1 : Part ns1 false lo c (some r) (.opt1 c) := by
        refine hp.frame ⟨fun i _ _ => hcore1 i,fun l _ hl _ => hin l hl,?_⟩ (by rintro ⟨⟩) (fun _ => hopt) le_rfl le_rfl
        rintro _ v ⟨⟩ hv
        exact hr'.trans hv
      obtain ⟨h1,h2,h3⟩ := hp1.trav (by rintro _ ⟨⟩; exact hr'.trans hr) ht
      cases h3 rfl
      exact ⟨h1,h2,fun _ => hp1⟩
  obtain ⟨htn,htin,htp⟩ := hend
  have htlt : t.idx < ns1.length := by
    rcases htin with rfl | htin
    · rwa [hlen1]
    · omega
  have hti : t.idx ≤ c ∧ lo < t.idx := by
    rcases htin with rfl | htin
    · exact ⟨le_rfl,hlt⟩
    · omega
  have h2 : ∀ l, link (setLink ns1 (some j) t) l = if l = t then some j else link ns1 l := link_setLink _ htlt
  have hrc' : link ns (.opt2 c) = some t' := by
    have hne : Loc.opt2 c ≠ t := by
      rintro rfl
      rcases htin with he | he
      · cases he
      · exact lt_irrefl _ he.2
    have hl : link (setLink ns1 (some j) t) (.opt2 c) = some t' := by
      rw [link,show (Loc.opt2 c).idx = c from rfl,hrc]
      exact ht'
    rw [h2,if_neg hne,h1,if_neg (by rintro ⟨⟩)] at hl
    exact hl
  have hnext1 : link ns1 (.next c) = some j := (h1 _).trans (if_pos rfl)
  refine ⟨hrc',(length_setLink _).trans hlen1,fun i => (coreOf_setLink _).trans (hcore1 i),fun l hl => ?_,?_,?_⟩
  · have hne : l ≠ t := by
      rintro rfl
      rcases hl with hl | hl | rfl
      · omega
      · omega
      · rcases htin with he | he
        · cases he
        · exact lt_irrefl _ he.2
    have hne' : l ≠ .next c := by
      rintro rfl
      rcases hl with hl | hl | hl
      · exact absurd hl (not_le.2 hlt)
      · exact lt_irrefl _ hl
      · cases hl
    rw [h2,if_neg hne,h1,if_neg hne']
  · rw [h2]
    split
    · rfl
    · exact hnext1
  · cases b with
    | false =>
      have hp2 : Part (setLink ns1 (some j) t) false lo c (some t) (.opt1 c) := by
        refine (htp rfl).frame ⟨fun i _ _ => coreOf_setLink _,?_,?_⟩ (by rintro ⟨⟩) ?_ le_rfl le_rfl
        · exact fun l _ _ hl => (h2 l).trans (if_neg fun he => hl (congrArg some he))
        · rintro _ v ⟨⟩ hv
          rw [htn] at hv
          cases hv
        · exact fun hl => (h2 _).trans (if_neg fun he => hl (congrArg some he))
      exact hp2.leads fun r hr => Or.inl (by cases hr; exact (h2 t).trans (if_pos rfl))
    | true =>
      have hfill : ∀ l : Loc, l.idx < c ∨ l = .opt1 c → link (setLink ns1 (some j) t) l = link ns l ∨
          link ns l = none ∧ link (setLink ns1 (some j) t) l = some j := by
        intro l hl
        have hsame : link ns1 l = link ns l := by
          rcases hl with hl | rfl
          · exact hin l hl
          · exact hopt
        by_cases he : l = t
        · subst he
          exact Or.inr ⟨hsame.symm.trans htn,(h2 l).trans (if_pos rfl)⟩
        · exact Or.inl (((h2 l).trans (if_neg he)).trans hsame)
      refine (h.part (o := none) le_rfl le_rfl).filled (fun i _ _ => (coreOf_setLink _).trans (hcore1 i)) ?_ (hfill _ (Or.inr rfl)) le_rfl
      exact fun l _ hl => hfill l (Or.inl hl)

/-! ## The choices of a group -/

theorem trav_kind {f : ℕ} {t : Loc} (h : loop (travBody ns) f l = some t) : t = l ∨ ∃ i, t = .next i := by
  refine loop_partial (I := fun t => t = l ∨ ∃ i, t = .next i) (Q := fun t => t = l ∨ ∃ i, t = .next i) ?_ ?_ (Or.inl rfl) h
  · intro t t' _ hb
    simp only [travBody, Option.bind_eq_bind, Option.bind_eq_some_iff] at hb
    obtain ⟨o,-,hb⟩ := hb
    cases o with
    | none => cases hb
    | some j =>
      cases hb
      exact Or.inr ⟨j,rfl⟩
  · intro t t' ht hb
    simp only [travBody, Option.bind_eq_bind, Option.bind_eq_some_iff] at hb
    obtain ⟨o,-,hb⟩ := hb
    cases o with
    | none =>
      cases hb
      exact ht
    | some j => cases hb

theorem finalize_step {f : ℕ} (hc : typeOf ns c = some .choice) (h : loop (finalizeBody j) (f + 1) (ns,c) = some ns') :
    ∃ ns1 t, finalizeBody j (ns,c) = some (.again (ns1,t)) ∧ loop (finalizeBody j) f (ns1,t) = some ns' := by
  cases hb : finalizeBody j (ns,c) with
  | none =>
    rw [loop,hb] at h
    cases h
  | some t =>
    cases t with
    | again x =>
      rw [loop_again hb] at h
      exact ⟨x.1,x.2,rfl,h⟩
    | leave r =>
      obtain ⟨n,hn,htype,-⟩ := node_of_type hc
      simp only [finalizeBody, hn, htype, Option.bind_eq_bind, Option.bind_some, if_true, Option.bind_eq_some_iff] at hb
      obtain ⟨_,_,_,_,_,_,hb⟩ := hb
      cases hb

theorem finalize_stop {f : ℕ} (hc : typeOf ns c ≠ some .choice) (h : loop (finalizeBody j) f (ns,c) = some ns') : ns' = ns := by
  cases f with
  | zero => cases h
  | succ f =>
    cases hn : ns[c]? with
    | none => simp [loop, finalizeBody, hn] at h
    | some n =>
      have hne : n.type ≠ .choice := by
        intro he
        rw [typeOf,hn] at hc
        exact hc (congrArg some he)
      rw [loop_leave (r := ns) (by simp only [finalizeBody, hn, Option.bind_eq_bind, Option.bind_some, if_neg hne]; rfl)] at h
      exact (Option.some.inj h).symm

theorem finalize_arms (h : Arms ns b lo l c) (hlo : l.idx ≤ lo) (hc : c < hi) (hp : Leads ns false c hi (.opt2 c) j)
    (hne : ∀ t, link ns (.opt2 c) = some t → typeOf ns t ≠ some .choice) {f h' : ℕ} (hl : link ns l = some h')
    (hf : loop (finalizeBody j) f (ns,h') = some ns') :
    Leads ns' b lo hi l j ∧ ns'.length = ns.length ∧ (∀ i, coreOf ns' i = coreOf ns i) ∧
      ∀ l : Loc, l.idx ≤ lo ∨ c < l.idx ∨ l = .opt2 c → link ns' l = link ns l := by
  induction f generalizing ns b lo l h' with
  | zero => cases hf
  | succ f ih =>
    have hlt := h.lt
    cases h with
    | last hl' ha =>
      rw [hl] at hl'
      cases hl'
      obtain ⟨ns1,t,hb,hf⟩ := finalize_step ha.type hf
      obtain ⟨ht,hlen,hcore,hothers,hnext,hlist⟩ := finalizeBody_arm ha hb
      cases finalize_stop (by rw [typeOf_congr (hcore t)]; exact hne t ht) hf
      have hrest : Leads ns' false c hi (.opt2 c) j :=
        hp.frame (fun i _ _ => hcore i) (fun l h1 _ => hothers l (Or.inr (Or.inl h1))) (hothers _ (Or.inr (Or.inr rfl)))
      exact ⟨.choice ((hothers l (Or.inl hlo)).trans hl) ⟨hlt,hc⟩ ((typeOf_congr (hcore c)).trans ha.type) (fun _ => hnext)
        (hlist.mono le_rfl hc.le) (hrest.loosen.mono hlt.le le_rfl),hlen,hcore,hothers⟩
    | cons hl' ha hcs =>
      rw [hl] at hl'
      cases hl'
      have hlt' := hcs.lt
      have hlth := ha.lt
      obtain ⟨ns1,t,hb,hf⟩ := finalize_step ha.type hf
      obtain ⟨ht,hlen,hcore,hothers,hnext,hlist⟩ := finalizeBody_arm ha hb
      have hbehind : ∀ l : Loc, h' < l.idx → link ns1 l = link ns l := fun l h1 => hothers l (Or.inr (Or.inl h1))
      have hopt : link ns1 (.opt2 h') = link ns (.opt2 h') := hothers _ (Or.inr (Or.inr rfl))
      have hcs1 : Arms ns1 false h' (.opt2 h') c :=
        hcs.frame (fun i _ _ => hcore i) (fun l h1 _ _ => hbehind l h1) hopt
      have hopt' : link ns1 (.opt2 c) = link ns (.opt2 c) := hbehind _ hlt'
      have hp1 : Leads ns1 false c hi (.opt2 c) j :=
        hp.frame (fun i _ _ => hcore i) (fun l h1 _ => hbehind l (hlt'.trans h1)) hopt'
      obtain ⟨hleads,hlen2,hcore2,hothers2⟩ := ih hcs1 le_rfl hp1
        (fun t ht => by rw [typeOf_congr (hcore t)]; exact hne t (hopt'.symm.trans ht)) (hopt.trans ht) hf
      have hfront : ∀ l : Loc, l.idx ≤ h' → link ns' l = link ns1 l := fun l hl => hothers2 l (Or.inl hl)
      have hlist2 : Leads ns' b lo h' (.opt1 h') j :=
        hlist.frame (fun i _ _ => hcore2 i) (fun l _ h2 => hfront l h2.le) (hfront _ le_rfl)
      refine ⟨.choice (((hfront l (by omega)).trans (hothers l (Or.inl hlo))).trans hl) ⟨hlth,by omega⟩
        ((typeOf_congr (hcore2 h')).trans ((typeOf_congr (hcore h')).trans ha.type)) (fun _ => (hfront (.next h') le_rfl).trans hnext)
        (hlist2.mono le_rfl (by omega)) (hleads.loosen.mono hlth.le le_rfl),hlen2.trans hlen,fun i => (hcore2 i).trans (hcore i),?_⟩
      rintro l (h1 | h1 | rfl)
      · exact (hfront l (by omega)).trans (hothers l (Or.inl h1))
      · exact (hothers2 l (Or.inr (Or.inl h1))).trans (hbehind l (by omega))
      · exact (hothers2 _ (Or.inr (Or.inr rfl))).trans hopt'

end Catlib.Rex
