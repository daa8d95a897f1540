import Catlib.Rex.Nodes

/-! # Open groups

The invariant of the parser: the table is wired up to the one link that waits for the next
node, and every open group has the chain of its choices.
-/
namespace Catlib.Rex

variable {ns ns' : List RexNode} {n : RexNode} {l r slot : Loc} {os os' : List ℕ} {i j g c d lo hi B rge : ℕ}
  {gs lc lc' : Option ℕ}

/-! ## The table -/

/-- `r` waits for the next node; `os` are the open groups and their last choices. -/
structure Wired (ns : List RexNode) (r : Loc) (os : List ℕ) : Prop where
  start : typeOf ns 0 = some .groupS
  stop : typeOf ns 1 = some .groupE
  up : ∀ l j, link ns l = some j → j < ns.length ∧ 1 < j ∧ (l = .opt1 l.idx ∨ l.idx < j)
  filled : ∀ l, Walked ns l → l ≠ r → ∃ j, link ns l = some j
  hole : link ns r = none
  hole_lt : r.idx < ns.length
  open_le : ∀ o ∈ os, o ≤ r.idx
  choice : ∀ c, typeOf ns c = some .choice → ∃ lo, 1 < lo ∧ Sealed ns lo c ∧ ∀ o ∈ os, o < lo ∨ c ≤ o

theorem Wired.one_lt (h : Wired ns r os) : 1 < ns.length := typeOf_lt h.stop

theorem Wired.mono (h : Wired ns r os) (hos : ∀ o ∈ os', o ∈ os) : Wired ns r os' :=
  ⟨h.start,h.stop,h.up,h.filled,h.hole,h.hole_lt,fun o ho => h.open_le o (hos o ho),fun c hc =>
    (h.choice c hc).imp fun _ hlo => ⟨hlo.1,hlo.2.1,fun o ho => hlo.2.2 o (hos o ho)⟩⟩

/-- The link that waits gets a value, which is no choice. -/
structure Fills (ns ns' : List RexNode) (r : Loc) (v : ℕ) : Prop where
  links : ∀ l, link ns' l = if l = r then some v else link ns l
  type : ∀ i, i < ns.length → typeOf ns' i = typeOf ns i
  other : ∀ i, i < ns.length → otherOf ns' i = otherOf ns i
  new : typeOf ns' v ≠ some .choice

theorem fills_stop (h : Wired ns r os) : Fills ns (setLink ns (some 1) r) r 1 :=
  ⟨fun l => link_setLink _ h.hole_lt l,fun _ _ => typeOf_setLink _,fun _ _ => otherOf_setLink _,by
    rw [typeOf_setLink,h.stop]
    exact nofun⟩

/-- A new node goes to the link that waits. -/
def grow (ns : List RexNode) (r : Loc) (n : RexNode) : List RexNode := setLink ns (some ns.length) r ++ [n]

@[simp] theorem length_grow : (grow ns r n).length = ns.length + 1 := by
  simp [grow]

theorem typeOf_grow : typeOf (grow ns r n) i = if i = ns.length then some n.type else typeOf ns i := by
  rw [grow,typeOf_concat,length_setLink,typeOf_setLink]

theorem otherOf_grow : otherOf (grow ns r n) i = if i = ns.length then n.other else otherOf ns i := by
  rw [grow,otherOf_concat,length_setLink,otherOf_setLink]

theorem Blank.links (hn : Blank n) (l : Loc) : n.link l = none := by
  cases l with
  | next => exact hn.next
  | opt1 => exact hn.opt1
  | opt2 => exact hn.opt2

theorem link_grow (hr : r.idx < ns.length) (hn : Blank n) (l : Loc) :
    link (grow ns r n) l = if l = r then some ns.length else link ns l := by
  rw [grow,link_concat,length_setLink,link_setLink _ hr,hn.links]
  split
  · rename_i hl
    rw [if_neg (by rintro rfl; omega),link_of_ge hl.ge]
  · rfl

theorem fills_grow (hr : r.idx < ns.length) (hn : Blank n) (htype : n.type ≠ .choice) : Fills ns (grow ns r n) r ns.length := by
  refine ⟨link_grow hr hn,fun i hi => ?_,fun i hi => ?_,?_⟩
  · rw [typeOf_grow,if_neg (by omega)]
  · rw [otherOf_grow,if_neg (by omega)]
  · rw [typeOf_grow,if_pos rfl]
    exact fun h => htype (Option.some.inj h)

theorem Sealed.fills (h : Sealed ns lo c) (hf : Fills ns ns' r i) (hr : link ns r = none) (hc : c < ns.length) :
    Sealed ns' lo c := by
  have hkeep : ∀ l j, link ns l = some j → link ns' l = some j := by
    intro l j hl
    rw [hf.links,if_neg (by rintro rfl; rw [hr] at hl; cases hl),hl]
  obtain ⟨j,hj,hjlo,hjc,hcl⟩ := h
  exact ⟨j,hkeep _ j hj,hjlo,hjc,hcl.frame (fun i _ hi => hf.type i (by omega)) fun l j _ _ _ => hkeep l j⟩

theorem Wired.grow (h : Wired ns r os) (hn : Blank n) (htype : n.type ≠ .choice) : Wired (grow ns r n) (.next ns.length) os := by
  have hf := fills_grow h.hole_lt hn htype
  have hlen := h.one_lt
  refine ⟨?_,?_,?_,?_,?_,?_,?_,?_⟩
  · rw [hf.type 0 (by omega),h.start]
  · rw [hf.type 1 hlen,h.stop]
  · intro l j hl
    rw [hf.links] at hl
    split at hl
    · rename_i hlr
      cases hl
      rw [hlr]
      exact ⟨by simp,hlen,Or.inr h.hole_lt⟩
    · obtain ⟨h1,h2,h3⟩ := h.up l j hl
      exact ⟨by rw [length_grow]; omega,h2,h3⟩
  · intro l hw hne
    rw [hf.links]
    by_cases hlr : l = r
    · exact ⟨_,if_pos hlr⟩
    · rw [if_neg hlr]
      have hne' : l.idx ≠ ns.length := by
        intro he
        have hnew := hf.new
        rw [← he] at hnew hne
        cases l with
        | next i => exact hne rfl
        | opt1 i => exact hnew hw
        | opt2 i => exact hnew hw
      exact h.filled l ((walked_congr (by rw [typeOf_grow,if_neg hne'])).1 hw) hlr
  · have hr := h.hole_lt
    rw [hf.links,if_neg (by rintro rfl; exact lt_irrefl _ hr),link_of_ge le_rfl]
  · rw [length_grow]
    exact Nat.lt_succ_self _
  · exact fun o ho => (h.open_le o ho).trans h.hole_lt.le
  · intro c hc
    have hlt : c < ns.length := by
      have := typeOf_lt hc
      rw [length_grow] at this
      rcases Nat.lt_succ_iff_lt_or_eq.1 this with hlt | rfl
      · exact hlt
      · exact absurd hc hf.new
    rw [hf.type c hlt] at hc
    obtain ⟨lo,hlo,hs,hos⟩ := h.choice c hc
    exact ⟨lo,hlo,hs.fills hf h.hole hlt,hos⟩

theorem Wired.push (h : Wired ns r os) (hr : r.idx + 1 = ns.length) : Wired ns r (r.idx :: os) := by
  refine ⟨h.start,h.stop,h.up,h.filled,h.hole,h.hole_lt,?_,fun c hc => ?_⟩
  · exact List.forall_mem_cons.2 ⟨le_rfl,h.open_le⟩
  · obtain ⟨lo,hlo,hs,hos⟩ := h.choice c hc
    have hlt := typeOf_lt hc
    exact ⟨lo,hlo,hs,List.forall_mem_cons.2 ⟨Or.inr (by omega),hos⟩⟩

theorem Wired.filledBy (h : Wired ns (.next rge) os) (hone : 1 < rge) (hf : Filled ns ns' B rge rge) : Wired ns' (.next rge) os := by
  have hlen := hf.length
  have hrge : rge < ns.length := h.hole_lt
  refine ⟨(hf.type 0).trans h.start,(hf.type 1).trans h.stop,?_,?_,?_,?_,h.open_le,?_⟩
  · intro l j hl
    rw [hlen]
    rcases hf.links l with hsame | ⟨i,rfl,-,hi,-,hnew⟩
    · rw [hsame] at hl
      exact h.up l j hl
    · rw [hnew] at hl
      cases hl
      exact ⟨hrge,hone,Or.inr hi⟩
  · intro l hw hne
    have hw' := (walked_congr (hf.type l.idx)).1 hw
    obtain ⟨j,hj⟩ := h.filled l hw' hne
    exact ⟨j,hf.walked hw' hj⟩
  · rcases hf.links (.next rge) with hsame | ⟨i,heq,-,hi,-⟩
    · exact hsame.trans h.hole
    · cases heq
      exact absurd hi (lt_irrefl _)
  · rw [hlen]
    exact hrge
  · intro c hc
    rw [hf.type] at hc
    obtain ⟨lo,hlo,hs,hos⟩ := h.choice c hc
    exact ⟨lo,hlo,hs.filledBy hc hf,hos⟩

theorem Wired.done (h : Wired ns r os) (hf : Fills ns ns' r 1) (hlen : ns'.length = ns.length) : Done ns' := by
  have hlt := h.one_lt
  have htype : ∀ i, i < ns'.length → typeOf ns' i = typeOf ns i := fun i hi => hf.type i (by omega)
  refine ⟨?_,?_,fun l hw => ?_,fun c hc => ?_⟩
  · rw [htype 0 (by omega),h.start]
  · rw [htype 1 (by omega),h.stop]
  · rw [hf.links]
    by_cases hlr : l = r
    · exact ⟨1,if_pos hlr,by omega,Or.inl rfl⟩
    · have hl : l.idx < ns'.length := by
        cases l <;> exact typeOf_lt hw
      obtain ⟨j,hj⟩ := h.filled l ((walked_congr (htype _ hl)).1 hw) hlr
      obtain ⟨h1,h2,h3⟩ := h.up l j hj
      exact ⟨j,by rw [if_neg hlr,hj],by omega,Or.inr h3⟩
  · have hc' := typeOf_lt hc
    rw [htype c hc'] at hc
    obtain ⟨lo,-,hs,-⟩ := h.choice c hc
    exact ⟨lo,hs.fills hf h.hole (typeOf_lt hc)⟩

theorem Done.filledBy (h : Done ns) (hf : Filled ns ns' B hi rge) : Done ns' := by
  refine ⟨(hf.type 0).trans h.start,(hf.type 1).trans h.stop,fun l hw => ?_,fun c hc => ?_⟩
  · have hw' := (walked_congr (hf.type l.idx)).1 hw
    obtain ⟨j,hj,hlt,hcase⟩ := h.filled l hw'
    exact ⟨j,hf.walked hw' hj,by rwa [hf.length],hcase⟩
  · rw [hf.type] at hc
    exact (h.choice c hc).imp fun _ hs => hs.filledBy hc hf

/-! ## A choice -/

/-- A new choice goes to `slot`, and its second alternative waits. -/
def branch (ns : List RexNode) (slot r : Loc) (opt1 : Option ℕ) : List RexNode :=
  setLink (setLink ns (some ns.length) slot) none r ++ [{ type := .choice, opt1 := opt1 }]

theorem length_branch (o : Option ℕ) : (branch ns slot r o).length = ns.length + 1 := by
  simp [branch]

theorem typeOf_branch (o : Option ℕ) : typeOf (branch ns slot r o) i = if i = ns.length then some .choice else typeOf ns i := by
  rw [branch,typeOf_concat,length_setLink,length_setLink,typeOf_setLink,typeOf_setLink]

theorem otherOf_branch (o : Option ℕ) : otherOf (branch ns slot r o) i = if i = ns.length then none else otherOf ns i := by
  rw [branch,otherOf_concat,length_setLink,length_setLink,otherOf_setLink,otherOf_setLink]

/-- What a choice needs: the table is wired, and an alternative that is not empty hangs at `slot`. -/
structure Slot (ns : List RexNode) (slot r : Loc) (os : List ℕ) : Prop where
  wired : Wired ns r os
  plain : ¬Walked ns r
  walked : Walked ns slot
  up : slot ≠ .opt1 slot.idx
  mem : slot.idx ∈ os ∨ slot.idx = 0

theorem Slot.ne (h : Slot ns slot r os) : slot ≠ r := by
  rintro rfl
  exact h.plain h.walked

theorem Slot.first (h : Slot ns slot r os) : ∃ j, link ns slot = some j ∧ slot.idx < j ∧ 1 < j ∧ j < ns.length := by
  obtain ⟨j,hj⟩ := h.wired.filled slot h.walked h.ne
  obtain ⟨h1,h2,h3⟩ := h.wired.up slot j hj
  exact ⟨j,hj,h3.resolve_left h.up,h2,h1⟩

theorem Slot.links_branch (h : Slot ns slot r os) (o : Option ℕ) (l : Loc) :
    link (branch ns slot r o) l = if l = .opt1 ns.length then o else if l = slot then some ns.length else link ns l := by
  obtain ⟨j,hj,-⟩ := h.first
  have hr := h.wired.hole_lt
  have hslot := link_lt hj
  rw [branch,link_concat,length_setLink,length_setLink,link_setLink _ (by rwa [length_setLink]),link_setLink _ hslot]
  by_cases hl : l.idx = ns.length
  · rw [if_pos hl,if_neg (show l ≠ slot by rintro rfl; omega),link_of_ge hl.ge]
    cases l <;> simp only [Loc.idx] at hl <;> simp [RexNode.link, hl]
  · rw [if_neg hl,if_neg (show l ≠ .opt1 ns.length by rintro rfl; exact hl rfl)]
    by_cases hlr : l = r
    · subst hlr
      rw [if_pos rfl,if_neg h.ne.symm,h.wired.hole]
    · rw [if_neg hlr]

theorem Slot.closed (h : Slot ns slot r os) : Closed ns (max slot.idx 1 + 1) ns.length := by
  intro l hw hlo hhi
  obtain ⟨j,hj⟩ := h.wired.filled l hw (by rintro rfl; exact h.plain hw)
  obtain ⟨h1,h2,h3⟩ := h.wired.up l j hj
  refine ⟨j,hj,?_,h1⟩
  rcases h3 with h3 | h3
  · -- the first alternative of an older choice, which is closed itself
    obtain ⟨i,rfl⟩ : ∃ i, l = .opt1 i := ⟨_,h3⟩
    obtain ⟨lo,hlo1,⟨j',hj',hle,-⟩,hos⟩ := h.wired.choice i hw
    rw [hj] at hj'
    cases hj'
    change max slot.idx 1 + 1 ≤ i at hlo
    rcases h.mem with hmem | hzero
    · have := hos _ hmem
      omega
    · omega
  · omega

theorem Wired.branch (h : Slot ns slot r os) (hos : ∀ o ∈ os', o = ns.length ∨ o ∈ os ∧ o ≤ slot.idx) :
    Wired (branch ns slot r (link ns slot)) (.opt2 ns.length) os' := by
  obtain ⟨j,hj,hsj,hone,hjlt⟩ := h.first
  have hlen := h.wired.one_lt
  have hlink := h.links_branch (link ns slot)
  have hslot := link_lt hj
  have hold : ∀ i, i < ns.length → typeOf (Rex.branch ns slot r (link ns slot)) i = typeOf ns i := fun i hi => by
    rw [typeOf_branch,if_neg (by lia)]
  -- old walks go on as before, but for the slot
  have hkeep : ∀ l, l.idx < ns.length → l ≠ slot → link (Rex.branch ns slot r (link ns slot)) l = link ns l := fun l hl hne => by
    rw [hlink,if_neg (by rintro rfl; exact lt_irrefl _ hl),if_neg hne]
  have hnew : link (Rex.branch ns slot r (link ns slot)) (.opt1 ns.length) = some j := by
    rw [hlink,if_pos rfl,hj]
  refine ⟨?_,?_,?_,?_,?_,?_,?_,?_⟩
  · rw [hold 0 (by lia),h.wired.start]
  · rw [hold 1 hlen,h.wired.stop]
  · intro l i hl
    rw [length_branch]
    rw [hlink] at hl
    split at hl
    · rename_i he
      rw [hj] at hl
      cases hl
      exact ⟨by lia,hone,Or.inl (by rw [he]; rfl)⟩
    · split at hl
      · rename_i he
        cases hl
        rw [he]
        exact ⟨by lia,hlen,Or.inr hslot⟩
      · obtain ⟨h1,h2,h3⟩ := h.wired.up l i hl
        exact ⟨by lia,h2,h3⟩
  · intro l hw hne
    by_cases hidx : l.idx = ns.length
    · cases l with
      | next i =>
        change typeOf _ i = _ at hw
        rw [typeOf_branch,if_pos (show i = ns.length from hidx)] at hw
        cases hw
      | opt1 i =>
        rw [show i = ns.length from hidx]
        exact ⟨j,hnew⟩
      | opt2 i => exact absurd (congrArg Loc.opt2 (show i = ns.length from hidx)) hne
    · have hlt : l.idx < ns.length := by
        have hlt' : l.idx < (Rex.branch ns slot r (link ns slot)).length := by
          cases l <;> exact typeOf_lt hw
        rw [length_branch] at hlt'
        lia
      by_cases hs : l = slot
      · rw [hlink,if_neg (by rintro rfl; exact hidx rfl),if_pos hs]
        exact ⟨_,rfl⟩
      · have hw' := (walked_congr (hold _ hlt)).1 hw
        rw [hkeep l hlt hs]
        exact h.wired.filled l hw' (by rintro rfl; exact h.plain hw')
  · rw [hlink,if_neg nofun,if_neg (by rintro rfl; exact lt_irrefl _ hslot),link_of_ge le_rfl]
  · rw [length_branch]
    exact Nat.lt_succ_self _
  · intro o ho
    rcases hos o ho with rfl | ⟨-,hle⟩
    · exact le_rfl
    · exact hle.trans hslot.le
  · intro c hc
    by_cases hcn : c = ns.length
    · subst hcn
      refine ⟨max slot.idx 1 + 1,by lia,⟨j,hnew,by lia,hjlt,?_⟩,fun o ho => ?_⟩
      · refine h.closed.frame (fun i _ hi => hold i hi) fun l i _ hlo hhi hl => ?_
        rwa [hkeep l hhi (by rintro rfl; lia)]
      · rcases hos o ho with rfl | ⟨-,hle⟩
        · exact Or.inr le_rfl
        · exact Or.inl (by lia)
    · have hlt : c < ns.length := by
        have := typeOf_lt hc
        rw [length_branch] at this
        lia
      rw [hold c hlt] at hc
      obtain ⟨lo,hlo,⟨i,hi,hle,hic,hcl⟩,hos'⟩ := h.wired.choice c hc
      have hout : slot.idx < lo ∨ c ≤ slot.idx := by
        rcases h.mem with hmem | hzero
        · exact hos' _ hmem
        · exact Or.inl (by lia)
      refine ⟨lo,hlo,⟨i,?_,hle,hic,?_⟩,fun o ho => ?_⟩
      · rwa [hkeep (.opt1 c) hlt (by rintro rfl; exact h.up rfl)]
      · refine hcl.frame (fun i _ hi => hold i (by lia)) fun l k _ h1 h2 hl => ?_
        rwa [hkeep l (by lia) (by rintro rfl; lia)]
      · rcases hos o ho with rfl | ⟨hmem,-⟩
        · exact Or.inr hlt.le
        · exact hos' o hmem

/-! ## The levels -/

/-- The chain of the choices of a group, and its last; the second alternative of this one does
not begin with a choice. -/
structure Last (ns : List RexNode) (g c : ℕ) : Prop where
  chain : ∃ h, link ns (.next g) = some h ∧ Chain ns (max g 1) h c
  rest : ∀ o, link ns (.opt2 c) = some o → typeOf ns o ≠ some .choice

/-- A group with its last choice, or without one. -/
def Level (ns : List RexNode) (g : ℕ) : Option ℕ → Prop
  | none => ∀ j, link ns (.next g) = some j → typeOf ns j ≠ some .choice
  | some c => Last ns g c

/-- The groups that are open, with the last choice of the innermost one and all their open nodes.
Behind a nested group the parser does not go back to the choices outside of all groups. -/
inductive Levels (ns : List RexNode) : ℕ → Option ℕ → Option ℕ → List ℕ → Prop
  | top {lc : Option ℕ} (h : ∀ c, lc = some c → Last ns 0 c) : Levels ns 0 none lc lc.toList
  | group {d g : ℕ} {gs lc lc' : Option ℕ} {os : List ℕ} (hg : typeOf ns g = some .groupS) (hgs : otherOf ns g = gs)
      (hout : Levels ns d gs lc os) (htop : gs = none → lc = none) (hos : ∀ o ∈ os, o < g) (h : Level ns g lc') :
      Levels ns (d + 1) (some g) lc' (lc'.toList ++ g :: os)

/-- Two tables that are the same below `B`, but for the link of `B` that waits. -/
structure Agree (ns ns' : List RexNode) (B : ℕ) : Prop where
  same : ∀ l, l.idx + 1 < B → link ns' l = link ns l
  keep : ∀ l j, l.idx < B → link ns l = some j → link ns' l = some j
  type : ∀ i, i < ns.length → typeOf ns' i = typeOf ns i
  other : ∀ i, i < B → i < ns.length → otherOf ns' i = otherOf ns i
  new : ∀ l j, l.idx < B → link ns' l = some j → link ns l = some j ∨ typeOf ns' j ≠ some .choice

theorem Fills.agree {v : ℕ} (hf : Fills ns ns' r v) (hr : link ns r = none) : Agree ns ns' (r.idx + 1) := by
  have hne : ∀ l, l ≠ r → link ns' l = link ns l := fun l hl => by rw [hf.links,if_neg hl]
  refine ⟨fun l hl => hne l (by rintro rfl; omega),fun l j _ hl => ?_,hf.type,fun i _ => hf.other i,fun l j _ hl => ?_⟩
  · rw [hne l (by rintro rfl; rw [hr] at hl; cases hl),hl]
  · rw [hf.links] at hl
    split at hl
    · cases hl
      exact Or.inr hf.new
    · exact Or.inl hl

theorem agree_of_links (h : ∀ l, l.idx < B → link ns' l = link ns l) (ht : ∀ i, i < ns.length → typeOf ns' i = typeOf ns i)
    (ho : ∀ i, i < B → i < ns.length → otherOf ns' i = otherOf ns i) : Agree ns ns' B :=
  ⟨fun l hl => h l (by omega),fun l _ hl hj => (h l hl).trans hj,ht,ho,fun l _ hl hj => Or.inl ((h l hl).symm.trans hj)⟩

theorem Filled.agree (hf : Filled ns ns' B hi rge) : Agree ns ns' B := by
  refine agree_of_links (fun l hl => ?_) (fun i _ => hf.type i) fun i hi _ => hf.other i hi
  rcases hf.links l with h | ⟨i,rfl,hB,-⟩
  · exact h
  · exact absurd hl (not_lt.2 hB)

theorem Last.type (h : Last ns g c) : typeOf ns c = some .choice := by
  obtain ⟨_,-,hc⟩ := h.chain
  obtain ⟨_,ha⟩ := hc.end_alt
  exact ha.type

theorem Last.agree (h : Last ns g c) (hag : Agree ns ns' B) (hv : ∀ l j, link ns l = some j → j < ns.length) (hg : g < B)
    (hc : c < B) : Last ns' g c := by
  obtain ⟨⟨i,hi,hchain⟩,hrest⟩ := h
  obtain ⟨_,-,j,-,hj,-⟩ := hchain.end_alt
  have hlt := hchain.lt
  refine ⟨⟨i,hag.keep (.next g) i hg hi,hchain.frame (fun k _ hk => hag.type k (by omega)) fun l _ hl => ?_⟩,fun o ho => ?_⟩
  · rcases hl with hl | rfl
    · exact hag.same l (by omega)
    · rw [hag.keep (.opt1 c) j hc hj,hj]
  · rcases hag.new (.opt2 c) o hc ho with hold | hnew
    · rw [hag.type o (hv _ o hold)]
      exact hrest o hold
    · exact hnew

theorem Level.agree (h : Level ns g lc) (hag : Agree ns ns' B) (hv : ∀ l j, link ns l = some j → j < ns.length) (hg : g < B)
    (hc : ∀ c ∈ lc.toList, c < B) : Level ns' g lc := by
  cases lc with
  | none =>
    intro j hj
    rcases hag.new (.next g) j hg hj with hold | hnew
    · rw [hag.type j (hv _ j hold)]
      exact h j hold
    · exact hnew
  | some c => exact Last.agree h hag hv hg (hc c (by simp))

theorem Levels.agree (h : Levels ns d gs lc os) (hag : Agree ns ns' B) (hv : ∀ l j, link ns l = some j → j < ns.length)
    (hos : ∀ o ∈ os, o < B) : Levels ns' d gs lc os := by
  induction h with
  | @top lc h =>
    refine .top fun c hc => ?_
    subst hc
    have hcB := hos c (by simp)
    exact (h c rfl).agree hag hv (by omega) hcB
  | @group d g gs lc lc' os hg hgs hout htop hlt h ih =>
    have hgB := hos g (by simp)
    have hlen := typeOf_lt hg
    refine .group ((hag.type g hlen).trans hg) ((hag.other g hgB hlen).trans hgs) (ih fun o ho => hos o (by simp [ho])) htop hlt ?_
    exact h.agree hag hv hgB fun c hc => hos c (List.mem_append_left _ hc)

end Catlib.Rex
