import Catlib.Memory.Pcache

/-! # What the pool cache keeps

The pages are filed by how many of their items are free, and the free items of a page are its
places that no owner has.
-/
namespace Catlib.PoolCache

variable {pc : Pcache} {s : PcState} {live : List ℕ} {p q x y z : ℕ} {v w : Filing}

/-! ## Places -/

theorem plIsiz_pos {siz n : ℕ} {align : ℤ} (h : plIsiz siz align = some n) : 0 < n := by
  rw [plIsiz] at h
  split at h
  · cases h
  dsimp only at h
  generalize (if 0 ≤ align then 2 ^ align.toNat else 0) = a at h
  have hmax : 0 < max siz (max a pitemSize) :=
    Nat.lt_of_lt_of_le (by decide : 0 < pitemSize) (Nat.le_trans (Nat.le_max_right _ _) (Nat.le_max_right _ _))
  split at h
  · split at h
    · cases h
      exact Nat.add_pos_left hmax _
    · cases h
  · cases h
    exact hmax

theorem Pcache.Roomy.isiz_pos (h : pc.Roomy) : 0 < pc.isiz ∧ headSize + pc.isiz ≤ pc.pgsiz := by
  obtain ⟨n,hn,hle⟩ := h
  rw [Pcache.isiz,hn]
  exact ⟨plIsiz_pos hn,hle⟩

theorem Pcache.Roomy.cap_pos (h : pc.Roomy) : 0 < pc.cap := by
  obtain ⟨hpos,hle⟩ := h.isiz_pos
  exact Nat.div_pos (by omega) hpos

theorem slots_length (pc : Pcache) (p : ℕ) : (pc.slots p).length = pc.cap := by
  rw [Pcache.slots,List.length_map,List.length_range]

theorem slots_bounds (h : pc.Roomy) (hx : x ∈ pc.slots p) : p + headSize ≤ x ∧ x + pc.isiz ≤ p + pc.pgsiz := by
  obtain ⟨k,hk,rfl⟩ := List.mem_map.1 hx
  rw [List.mem_range] at hk
  obtain ⟨-,hle⟩ := h.isiz_pos
  have hcap : pc.cap * pc.isiz ≤ pc.pgsiz - headSize := Nat.div_mul_le_self _ _
  have hlast : (k + 1) * pc.isiz ≤ pc.cap * pc.isiz := Nat.mul_le_mul_right _ hk
  rw [Nat.succ_mul] at hlast
  omega

theorem slots_nodup (h : pc.Roomy) : (pc.slots p).Nodup := by
  refine List.Nodup.map ?_ List.nodup_range
  intro j k hjk
  exact Nat.eq_of_mul_eq_mul_right h.isiz_pos.1 (Nat.add_left_cancel hjk)

/-! ## Lists of pages -/

/-- One page goes to the list `w`, the others stay where they are. -/
structure Moves (l l' : Filing → List ℕ) (p : ℕ) (w : Filing) : Prop where
  nodup : ∀ v, (l' v).Nodup
  self : ∀ v, p ∈ l' v ↔ v = w
  other : ∀ q, q ≠ p → ∀ v, q ∈ l' v ↔ q ∈ l v

theorem rem_some (h : p ∈ pc.list w) : pc.rem p = some { pc with list := fun w => (pc.list w).filter (· ≠ p) } := by
  refine if_pos ?_
  cases w with
  | avail => exact Or.inl h
  | full => exact Or.inr (Or.inl h)
  | empty => exact Or.inr (Or.inr h)

theorem mem_rem {l : List ℕ} : q ∈ l.filter (· ≠ p) ↔ q ∈ l ∧ q ≠ p := by
  rw [List.mem_filter,decide_eq_true_eq]

theorem Moves.front (l : Filing → List ℕ) (p : ℕ) (w : Filing) (h : ∀ v, (l v).Nodup) :
    Moves l (fun v => if v = w then p :: (l v).filter (· ≠ p) else (l v).filter (· ≠ p)) p w := by
  have hout : ∀ v, p ∉ (l v).filter (· ≠ p) := fun v hp => (mem_rem.1 hp).2 rfl
  refine ⟨fun v => ?_,fun v => ?_,fun q hq v => ?_⟩
  · split
    · exact List.nodup_cons.2 ⟨hout v,(h v).filter _⟩
    · exact (h v).filter _
  · split
    · rename_i hv
      exact iff_of_true List.mem_cons_self hv
    · rename_i hv
      exact iff_of_false (hout v) hv
  · split
    · rw [List.mem_cons,mem_rem]
      exact ⟨fun hm => hm.elim (fun h => (hq h).elim) And.left,fun hm => Or.inr ⟨hm,hq⟩⟩
    · rw [mem_rem]
      exact ⟨And.left,fun hm => ⟨hm,hq⟩⟩

theorem Moves.back (l : Filing → List ℕ) (p : ℕ) (w : Filing) (h : ∀ v, (l v).Nodup) :
    Moves l (fun v => if v = w then (l v).filter (· ≠ p) ++ [p] else (l v).filter (· ≠ p)) p w := by
  have hf := Moves.front l p w h
  have hperm : ∀ v, ((if v = w then (l v).filter (· ≠ p) ++ [p] else (l v).filter (· ≠ p)) : List ℕ).Perm
      (if v = w then p :: (l v).filter (· ≠ p) else (l v).filter (· ≠ p)) := by
    intro v
    split
    · exact List.perm_append_singleton _ _
    · exact List.Perm.refl _
  refine ⟨fun v => (hperm v).nodup_iff.2 (hf.nodup v),fun v => ?_,fun q hq v => ?_⟩
  · rw [(hperm v).mem_iff]
    exact hf.self v
  · rw [(hperm v).mem_iff]
    exact hf.other q hq v

/-! ## The invariant -/

/-- The pool of a page: its free items are the places without an owner. -/
structure Stocked (pc : Pcache) (pool : Pool) (live : List ℕ) (p : ℕ) : Prop where
  max : pool.max = pc.cap
  fill : pool.fill = pool.items.length
  nodup : pool.items.Nodup
  mem : ∀ x, x ∈ pool.items ↔ x ∈ pc.slots p ∧ x + padSize ∉ live

/-- What holds of the pages whatever list they are on. -/
structure Base (s : PcState) (live : List ℕ) : Prop where
  nodup : ∀ w, (s.pc.list w).Nodup
  one : ∀ p v w, p ∈ s.pc.list v → p ∈ s.pc.list w → v = w
  mem : ∀ p, p ∈ s.held ↔ ∃ w, p ∈ s.pc.list w
  heldNodup : s.held.Nodup
  num : s.pc.npools = s.held.length
  most : s.pc.npools ≤ s.pc.maxpools
  bound : s.pc.maxpools < 2 ^ 32
  given : s.held ≠ [] → s.pc.mm = true ∧ s.pc.Roomy
  away : ∀ p ∈ s.held, ∀ q ∈ s.held, p ≠ q → p + s.pc.pgsiz ≤ q ∨ q + s.pc.pgsiz ≤ p
  pool : ∀ p ∈ s.held, Stocked s.pc (s.pool p) live p
  owner : live.Nodup
  live : ∀ y ∈ live, ∃ p ∈ s.held, ∃ x ∈ s.pc.slots p, y = x + padSize ∧ s.pad x = p

/-- The list for a pool of that fill. -/
def Fits (pool : Pool) : Filing → Prop
  | .avail => 0 < pool.fill ∧ pool.fill < pool.max
  | .full => pool.fill = pool.max
  | .empty => pool.fill = 0

structure Inv (t : Owned) : Prop where
  base : Base t.s t.live
  fits : ∀ w, ∀ p ∈ t.s.pc.list w, Fits (t.s.pool p) w

theorem Base.roomy (h : Base s live) (hp : p ∈ s.held) : s.pc.Roomy := (h.given (List.ne_nil_of_mem hp)).2

theorem Base.apart (h : Base s live) (hp : p ∈ s.held) (hq : q ∈ s.held) (hx : x ∈ s.pc.slots p) (hx' : x ∈ s.pc.slots q) :
    p = q := by
  by_contra hne
  obtain ⟨hpos,hroom⟩ := (h.roomy hp).isiz_pos
  obtain ⟨h1,h2⟩ := slots_bounds (h.roomy hp) hx
  obtain ⟨h3,h4⟩ := slots_bounds (h.roomy hp) hx'
  rcases h.away p hp q hq hne with h5 | h5 <;> omega

theorem Base.refile (h : Base s live) (hp : p ∈ s.held) {l' : Filing → List ℕ} (hm : Moves s.pc.list l' p w) :
    Base { s with pc := { s.pc with list := l' } } live := by
  refine ⟨hm.nodup,?_,?_,h.heldNodup,h.num,h.most,h.bound,h.given,h.away,fun q hq => ?_,h.owner,h.live⟩
  · intro q u v hu hv
    by_cases hqp : q = p
    · subst hqp
      rw [(hm.self u).1 hu,(hm.self v).1 hv]
    · exact h.one q u v ((hm.other q hqp u).1 hu) ((hm.other q hqp v).1 hv)
  · intro q
    by_cases hqp : q = p
    · subst hqp
      exact iff_of_true hp ⟨w,(hm.self w).2 rfl⟩
    · rw [h.mem q]
      exact exists_congr fun v => (hm.other q hqp v).symm
  · obtain ⟨h1,h2,h3,h4⟩ := h.pool q hq
    exact ⟨h1,h2,h3,h4⟩

theorem Base.take (h : Base s live) (hp : p ∈ s.held) {rest : List ℕ} {f m : ℕ} (hpool : s.pool p = ⟨x :: rest,f + 1,m⟩) :
    x ∈ s.pc.slots p ∧ x + padSize ∉ live ∧
      Base { s.setPool p ⟨rest,f,m⟩ with pad := fun z => if z = x then p else s.pad z } ((x + padSize) :: live) := by
  have hst := h.pool p hp
  rw [hpool] at hst
  obtain ⟨hxs,hxl⟩ := (hst.mem x).1 List.mem_cons_self
  have hnd := List.nodup_cons.1 hst.nodup
  refine ⟨hxs,hxl,h.nodup,h.one,h.mem,h.heldNodup,h.num,h.most,h.bound,h.given,h.away,?_,List.nodup_cons.2 ⟨hxl,h.owner⟩,?_⟩
  · intro q hq
    by_cases hqp : q = p
    · subst hqp
      have hset : (if q = q then ⟨rest,f,m⟩ else s.pool q : Pool) = ⟨rest,f,m⟩ := if_pos rfl
      show Stocked s.pc (if q = q then ⟨rest,f,m⟩ else s.pool q) _ q
      rw [hset]
      refine ⟨hst.max,Nat.succ.inj hst.fill,hnd.2,fun z => ?_⟩
      rw [List.mem_cons,not_or]
      constructor
      · intro hz
        obtain ⟨h1,h2⟩ := (hst.mem z).1 (List.mem_cons_of_mem _ hz)
        refine ⟨h1,fun hzx => ?_,h2⟩
        rw [Nat.add_right_cancel hzx] at hz
        exact hnd.1 hz
      · rintro ⟨h1,h2,h3⟩
        rcases List.mem_cons.1 ((hst.mem z).2 ⟨h1,h3⟩) with rfl | hz
        · exact (h2 rfl).elim
        · exact hz
    · show Stocked s.pc (if q = p then ⟨rest,f,m⟩ else s.pool q) _ q
      rw [if_neg hqp]
      have hsq := h.pool q hq
      refine ⟨hsq.max,hsq.fill,hsq.nodup,fun z => ?_⟩
      rw [hsq.mem z,List.mem_cons,not_or]
      refine and_congr_right fun hz => (and_iff_right fun hzx => hqp ?_).symm
      rw [Nat.add_right_cancel hzx] at hz
      exact h.apart hq hp hz hxs
  · intro y hy
    rcases List.mem_cons.1 hy with rfl | hy
    · exact ⟨p,hp,x,hxs,rfl,if_pos rfl⟩
    · obtain ⟨q,hq,z,hz,rfl,hpad⟩ := h.live y hy
      refine ⟨q,hq,z,hz,rfl,?_⟩
      show (if z = x then p else s.pad z) = q
      rw [if_neg (fun hzx : z = x => hxl (hzx ▸ hy)),hpad]

theorem Base.give (h : Base s live) (hp : p ∈ s.held) (hxs : x ∈ s.pc.slots p) (hxl : x + padSize ∈ live) :
    Base (s.setPool p (plFree (s.pool p) x)) (live.erase (x + padSize)) := by
  have hst := h.pool p hp
  refine ⟨h.nodup,h.one,h.mem,h.heldNodup,h.num,h.most,h.bound,h.given,h.away,?_,h.owner.erase _,?_⟩
  · intro q hq
    by_cases hqp : q = p
    · subst hqp
      have hset : (if q = q then plFree (s.pool q) x else s.pool q) = plFree (s.pool q) x := if_pos rfl
      show Stocked s.pc (if q = q then plFree (s.pool q) x else s.pool q) _ q
      rw [hset]
      refine ⟨hst.max,congrArg (· + 1) hst.fill,List.nodup_cons.2 ⟨fun hx => ((hst.mem x).1 hx).2 hxl,hst.nodup⟩,fun z => ?_⟩
      show z ∈ x :: (s.pool q).items ↔ _
      rw [List.mem_cons,hst.mem z,h.owner.mem_erase_iff,not_and]
      constructor
      · rintro (rfl | ⟨h1,h2⟩)
        · exact ⟨hxs,fun hne => (hne rfl).elim⟩
        · exact ⟨h1,fun _ => h2⟩
      · rintro ⟨h1,h2⟩
        by_cases hzx : z = x
        · exact Or.inl hzx
        · exact Or.inr ⟨h1,h2 fun he => hzx (Nat.add_right_cancel he)⟩
    · show Stocked s.pc (if q = p then plFree (s.pool p) x else s.pool q) _ q
      rw [if_neg hqp]
      have hsq := h.pool q hq
      refine ⟨hsq.max,hsq.fill,hsq.nodup,fun z => ?_⟩
      rw [hsq.mem z,h.owner.mem_erase_iff,not_and]
      refine and_congr_right fun hz => ⟨fun hn _ => hn,fun hn => hn fun hzx => hqp ?_⟩
      rw [Nat.add_right_cancel hzx] at hz
      exact h.apart hq hp hz hxs
  · exact fun y hy => h.live y (List.mem_of_mem_erase hy)

theorem Base.release (h : Base s live) (hp : p ∈ s.held) (hfree : ∀ x ∈ s.pc.slots p, x + padSize ∉ live) :
    Base { s with
      held := s.held.erase p
      pc := { s.pc with
        list := fun w => (s.pc.list w).filter (· ≠ p)
        npools := (s.pc.npools + (2 ^ 32 - 1)) % 2 ^ 32 } } live := by
  have hlen : (s.held.erase p).length = s.held.length - 1 := List.length_erase_of_mem hp
  have hpos : 0 < s.held.length := List.length_pos_of_mem hp
  have hnum := h.num
  have hmost := h.most
  have hbound := h.bound
  have hheld : ∀ q, q ∈ s.held.erase p → q ∈ s.held := fun q hq => List.mem_of_mem_erase hq
  refine ⟨fun v => (h.nodup v).filter _,?_,?_,h.heldNodup.erase _,?_,?_,h.bound,?_,?_,fun q hq => ?_,h.owner,?_⟩
  · exact fun q u v hu hv => h.one q u v (mem_rem.1 hu).1 (mem_rem.1 hv).1
  · intro q
    rw [h.heldNodup.mem_erase_iff,h.mem q]
    constructor
    · rintro ⟨hqp,v,hv⟩
      exact ⟨v,mem_rem.2 ⟨hv,hqp⟩⟩
    · rintro ⟨v,hv⟩
      obtain ⟨hv,hqp⟩ := mem_rem.1 hv
      exact ⟨hqp,v,hv⟩
  · show (s.pc.npools + (2 ^ 32 - 1)) % 2 ^ 32 = (s.held.erase p).length
    omega
  · show (s.pc.npools + (2 ^ 32 - 1)) % 2 ^ 32 ≤ s.pc.maxpools
    omega
  · exact fun _ => h.given (List.ne_nil_of_mem hp)
  · exact fun q hq r hr => h.away q (hheld q hq) r (hheld r hr)
  · obtain ⟨h1,h2,h3,h4⟩ := h.pool q (hheld q hq)
    exact ⟨h1,h2,h3,h4⟩
  · intro y hy
    obtain ⟨q,hq,x,hx,rfl,hpad⟩ := h.live y hy
    refine ⟨q,h.heldNodup.mem_erase_iff.2 ⟨?_,hq⟩,x,hx,rfl,hpad⟩
    rintro rfl
    exact hfree x hx hy

theorem Base.add (h : Base s live) (hmm : s.pc.mm = true) (hr : s.pc.Roomy) (hlt : s.pc.npools ≠ s.pc.maxpools)
    (haway : ∀ q ∈ s.held, p + s.pc.pgsiz ≤ q ∨ q + s.pc.pgsiz ≤ p) :
    Base { s.setPool p ⟨s.pc.slots p,s.pc.cap,s.pc.cap⟩ with
      held := p :: s.held
      pc := { s.pc.insFront .avail p with npools := (s.pc.npools + 1) % 2 ^ 32 } } live := by
  have hnum := h.num
  have hmost := h.most
  have hbound := h.bound
  have hsize := hr.isiz_pos.2
  have hpos := hr.isiz_pos.1
  have hout : p ∉ s.held := fun hp => by
    rcases haway p hp with h1 | h1 <;> omega
  have hlist : ∀ v, p ∉ s.pc.list v := fun v hv => hout ((h.mem p).2 ⟨v,hv⟩)
  have hins : ∀ q v, q ∈ (s.pc.insFront .avail p).list v ↔ q = p ∧ v = .avail ∨ q ∈ s.pc.list v := by
    intro q v
    show q ∈ (if v = .avail then p :: s.pc.list v else s.pc.list v) ↔ _
    split
    · rename_i hv
      rw [List.mem_cons,and_iff_left hv]
    · rename_i hv
      exact ⟨Or.inr,fun hq => hq.elim (fun h => (hv h.2).elim) id⟩
  have hslot : ∀ x ∈ s.pc.slots p, x + padSize ∉ live := by
    intro x hx hl
    obtain ⟨q,hq,z,hz,hzx,-⟩ := h.live _ hl
    obtain rfl := Nat.add_right_cancel hzx
    obtain ⟨h1,h2⟩ := slots_bounds hr hx
    obtain ⟨h3,h4⟩ := slots_bounds hr hz
    rcases haway q hq with h5 | h5 <;> omega
  refine ⟨?_,?_,?_,List.nodup_cons.2 ⟨hout,h.heldNodup⟩,?_,?_,h.bound,fun _ => ⟨hmm,hr⟩,?_,?_,h.owner,?_⟩
  · intro v
    show (if v = .avail then p :: s.pc.list v else s.pc.list v).Nodup
    split
    · exact List.nodup_cons.2 ⟨hlist v,h.nodup v⟩
    · exact h.nodup v
  · intro q u v hu hv
    rcases (hins q u).1 hu with ⟨rfl,rfl⟩ | hu'
    · rcases (hins q v).1 hv with ⟨-,rfl⟩ | hv'
      · rfl
      · exact (hlist v hv').elim
    · rcases (hins q v).1 hv with ⟨rfl,-⟩ | hv'
      · exact (hlist u hu').elim
      · exact h.one q u v hu' hv'
  · intro q
    rw [List.mem_cons,h.mem q]
    constructor
    · rintro (rfl | ⟨v,hv⟩)
      · exact ⟨.avail,(hins q _).2 (Or.inl ⟨rfl,rfl⟩)⟩
      · exact ⟨v,(hins q v).2 (Or.inr hv)⟩
    · rintro ⟨v,hv⟩
      rcases (hins q v).1 hv with ⟨rfl,-⟩ | hv
      · exact Or.inl rfl
      · exact Or.inr ⟨v,hv⟩
  · show (s.pc.npools + 1) % 2 ^ 32 = s.held.length + 1
    omega
  · show (s.pc.npools + 1) % 2 ^ 32 ≤ s.pc.maxpools
    omega
  · intro q hq r hr hne
    rcases List.mem_cons.1 hq with rfl | hq'
    · rcases List.mem_cons.1 hr with rfl | hr'
      · exact (hne rfl).elim
      · exact haway r hr'
    · rcases List.mem_cons.1 hr with rfl | hr'
      · exact (haway q hq').symm
      · exact h.away q hq' r hr' hne
  · intro q hq
    show Stocked _ (if q = p then _ else s.pool q) live q
    by_cases hqp : q = p
    · subst hqp
      rw [if_pos rfl]
      exact ⟨rfl,(slots_length s.pc q).symm,slots_nodup hr,fun x => ⟨fun hx => ⟨hx,hslot x hx⟩,And.left⟩⟩
    · rw [if_neg hqp]
      obtain ⟨h1,h2,h3,h4⟩ := h.pool q ((List.mem_cons.1 hq).resolve_left hqp)
      exact ⟨h1,h2,h3,h4⟩
  · intro y hy
    obtain ⟨q,hq,x,hx,hxy,hpad⟩ := h.live y hy
    exact ⟨q,List.mem_cons_of_mem _ hq,x,hx,hxy,hpad⟩

/-! ## The calls -/

/-- All pages but the one in hand are filed. -/
def FitsBut (s : PcState) (p : ℕ) : Prop := ∀ w, ∀ q ∈ s.pc.list w, q ≠ p → Fits (s.pool q) w

/-- What `pc_alloc` has found: an available page with a free item. -/
structure Found (s : PcState) (live : List ℕ) (p : ℕ) : Prop where
  base : Base s live
  others : FitsBut s p
  first : ∃ rest, s.pc.list .avail = p :: rest
  fill : 0 < (s.pool p).fill

theorem Found.held (h : Found s live p) : p ∈ s.held := by
  obtain ⟨rest,hrest⟩ := h.first
  exact (h.base.mem p).2 ⟨.avail,by rw [hrest]; exact List.mem_cons_self⟩

theorem Fits.congr {pool pool' : Pool} (hf : pool'.fill = pool.fill) (hm : pool'.max = pool.max) (h : Fits pool w) :
    Fits pool' w := by
  cases w with
  | avail => exact ⟨hf ▸ h.1,by rw [hf,hm]; exact h.2⟩
  | full => exact (hf.trans h).trans hm.symm
  | empty => exact hf.trans h

theorem pcTake_spec (h : Found s live p) : ∃ y s', pcTake s = some (y,s') ∧ y ≠ 0 ∧ y ∉ live ∧ Inv ⟨s',y :: live⟩ := by
  obtain ⟨rest,hrest⟩ := h.first
  have hp := h.held
  have hst := h.base.pool p hp
  have hfill := h.fill
  have havail : p ∈ s.pc.list .avail := by
    rw [hrest]
    exact List.mem_cons_self
  obtain ⟨x,items,f,m,hpool⟩ : ∃ x items f m, s.pool p = ⟨x :: items,f + 1,m⟩ := by
    rcases hps : s.pool p with ⟨items,f,m⟩
    rw [hps] at hst hfill
    have hlen : f = items.length := hst.fill
    change 0 < f at hfill
    cases items with
    | nil => exact absurd hlen (by rw [List.length_nil]; omega)
    | cons x items => exact ⟨x,items,f - 1,m,by rw [Nat.sub_add_cancel hfill]⟩
  -- where the page goes: it stays, or its last free item is taken
  obtain ⟨l',w,hem,hmoves,hfits⟩ : ∃ l' w, pcEmpties s p = some { s with pc := { s.pc with list := l' } } ∧
      Moves s.pc.list l' p w ∧ Fits ⟨items,f,m⟩ w := by
    rw [pcEmpties,hpool]
    by_cases hone : f + 1 = 1
    · rw [if_pos hone,rem_some havail]
      exact ⟨_,.empty,rfl,Moves.front s.pc.list p .empty h.base.nodup,Nat.succ.inj hone⟩
    · rw [if_neg hone]
      refine ⟨s.pc.list,.avail,rfl,⟨h.base.nodup,fun v => ⟨fun hv => h.base.one p v _ hv havail,?_⟩,fun _ _ _ => Iff.rfl⟩,?_⟩
      · rintro rfl
        exact havail
      · have hle : (s.pool p).items.length ≤ (s.pc.slots p).length :=
          (List.subperm_of_subset hst.nodup fun z hz => ((hst.mem z).1 hz).1).length_le
        have hmax : (s.pool p).max = s.pc.cap := hst.max
        have hlen : (s.pool p).fill = (s.pool p).items.length := hst.fill
        rw [slots_length] at hle
        rw [hpool] at hle hmax hlen
        change m = s.pc.cap at hmax
        change f + 1 = (x :: items).length at hlen
        change (x :: items).length ≤ s.pc.cap at hle
        exact ⟨by show 0 < f; omega,by show f < m; omega⟩
  have hbase := h.base.refile hp hmoves
  obtain ⟨hxs,hxl,htake⟩ := hbase.take hp hpool
  have hx0 : x ≠ 0 := by
    have hb := (slots_bounds (hbase.roomy hp) hxs).1
    have hhead : headSize = 56 := rfl
    omega
  refine ⟨x + padSize,_,?_,Nat.succ_ne_zero _,hxl,htake,?_⟩
  · rw [pcTake,hrest]
    show (pcEmpties s p).bind _ = _
    rw [hem]
    show (plAlloc (s.pool p)).bind _ = _
    rw [hpool]
    exact if_neg hx0
  · intro v q hq
    by_cases hqp : q = p
    · subst hqp
      rw [(hmoves.self v).1 hq]
      exact hfits.congr (congrArg Pool.fill (if_pos rfl)) (congrArg Pool.max (if_pos rfl))
    · have hfq := h.others v q ((hmoves.other q hqp v).1 hq) hqp
      exact hfq.congr (congrArg Pool.fill (if_neg hqp)) (congrArg Pool.max (if_neg hqp))

theorem plInit_some {siz n mem mlen : ℕ} (hn : plIsiz siz (-1) = some n) (hmem : mem ≠ 0) (hlen : mlen ≠ 0) :
    plInit siz (-1) mem mlen = some ⟨(List.range (mlen / n)).map fun k => mem + k * n,mlen / n,mlen / n⟩ := by
  rw [plInit,if_neg (by rintro (h | h); exacts [hmem h,hlen h]),hn,Option.bind_some]
  exact if_pos (Or.inl (by decide))

theorem pcAddpg_some (h : s.pc.Roomy) (hp : p ≠ 0) : pcAddpg s p s.pc.pgsiz =
    some { s.setPool p ⟨s.pc.slots p,s.pc.cap,s.pc.cap⟩ with
      pc := { s.pc.insFront .avail p with npools := (s.pc.npools + 1) % 2 ^ 32 } } := by
  obtain ⟨n,hn,hle⟩ := h
  have hpos := plIsiz_pos hn
  have hisiz : s.pc.isiz = n := by rw [Pcache.isiz,hn,Option.getD_some]
  have hcheck : ¬(p = 0 ∨ ¬∃ n ∈ plIsiz s.pc.asiz (-1), (headSize + n) % 2 ^ 64 ≤ s.pc.pgsiz) := by
    rintro (h0 | hnone)
    · exact hp h0
    · exact hnone ⟨n,hn,Nat.le_trans (Nat.mod_le _ _) hle⟩
  rw [pcAddpg,if_neg hcheck,plInit_some hn (by omega) (by omega),Pcache.slots,Pcache.cap,hisiz]
  rfl

theorem pcTake_dry (p : ℕ) (rest : List ℕ) (hl : s.pc.list .avail = p :: rest) (hf : (s.pool p).fill = 0) : pcTake s = none := by
  rw [pcTake,hl]
  show (pcEmpties s p).bind _ = none
  rw [pcEmpties,if_neg (by rw [hf]; decide)]
  show (plAlloc (s.pool p)).bind _ = none
  rw [plAlloc,if_pos hf,Option.bind_some]
  exact if_pos rfl

theorem pcAddpg_small (h : ¬s.pc.Roomy) : (pcAddpg s p s.pc.pgsiz).bind pcTake = none := by
  rw [pcAddpg]
  split
  · rfl
  by_cases hlen : s.pc.pgsiz - headSize = 0
  · rw [plInit,if_pos (Or.inr hlen)]
    rfl
  cases hn : plIsiz s.pc.asiz (-1) with
  | none =>
    rw [plInit,hn]
    split <;> rfl
  | some n =>
    have hpos := plIsiz_pos hn
    have hsmall : s.pc.pgsiz - headSize < n := by
      by_contra hge
      exact h ⟨n,hn,by omega⟩
    rw [plInit_some hn (by have : headSize = 56 := rfl; omega) hlen,Nat.div_eq_of_lt hsmall]
    rw [Option.map_some,Option.bind_some]
    exact pcTake_dry p (s.pc.list .avail) rfl (congrArg Pool.fill (if_pos rfl))

theorem pcAvail_spec {memGet : Option ℕ} (h : Inv ⟨s,live⟩) (hop : Proper ⟨s,live⟩ (.alloc memGet))
    (hwell : GoesWell ⟨s,live⟩ (.alloc memGet)) :
    pcAvail s memGet = some none ∨ ∃ s1 p, pcAvail s memGet = some (some s1) ∧ Found s1 live p := by
  have hbase := h.base
  rw [pcAvail.eq_def]
  cases havail : s.pc.list .avail with
  | cons p rest =>
    rw [if_pos (List.cons_ne_nil p rest)]
    have hp : p ∈ s.pc.list .avail := by
      rw [havail]
      exact List.mem_cons_self
    exact Or.inr ⟨s,p,rfl,hbase,fun w q hq _ => h.fits w q hq,⟨rest,havail⟩,(h.fits .avail p hp).1⟩
  | nil =>
    rw [if_neg (not_not.2 rfl)]
    cases hfull : s.pc.list .full with
    | cons p rest =>
      right
      have hp : p ∈ s.pc.list .full := by
        rw [hfull]
        exact List.mem_cons_self
      have hheld : p ∈ s.held := (hbase.mem p).2 ⟨.full,hp⟩
      have hmoves := Moves.back s.pc.list p .avail hbase.nodup
      show ∃ s1 q, (s.pc.rem p).map _ = some (some s1) ∧ Found s1 live q
      rw [rem_some hp]
      refine ⟨_,p,rfl,hbase.refile hheld hmoves,?_,⟨[],?_⟩,?_⟩
      · exact fun w q hq hqp => h.fits w q ((hmoves.other q hqp w).1 hq)
      · show (s.pc.list .avail).filter (· ≠ p) ++ [p] = [p]
        rw [havail]
        rfl
      · have hmax : (s.pool p).fill = (s.pool p).max := h.fits .full p hp
        show 0 < (s.pool p).fill
        rw [hmax,(hbase.pool p hheld).max]
        exact (hbase.roomy hheld).cap_pos
    | nil =>
      by_cases hnone : s.pc.mm = false ∨ s.pc.npools = s.pc.maxpools
      · exact Or.inl (if_pos hnone)
      · rw [not_or,Bool.not_eq_false] at hnone
        cases memGet with
        | none => exact Or.inl (if_neg fun hn => hn.elim (fun hn => nomatch hnone.1.symm.trans hn) hnone.2)
        | some p =>
          right
          have hroom := hwell havail hfull hnone.1 hnone.2 (Option.some_ne_none p)
          obtain ⟨hp0,-,haway⟩ := hop p rfl
          have hadd := pcAddpg_some (s := { s with held := p :: s.held }) hroom hp0
          have hnew := hbase.add hnone.1 hroom hnone.2 haway
          refine ⟨_,p,?_,hnew,?_,⟨[],?_⟩,?_⟩
          · show (if _ then _ else Option.map some (pcAddpg { s with held := p :: s.held } p s.pc.pgsiz)) = _
            rw [if_neg fun hn => hn.elim (fun hn => nomatch hnone.1.symm.trans hn) hnone.2,hadd]
            rfl
          · intro w q hq hqp
            have hq' : q ∈ s.pc.list w := by
              change q ∈ (if w = .avail then p :: s.pc.list w else s.pc.list w) at hq
              split at hq
              · exact (List.mem_cons.1 hq).resolve_left hqp
              · exact hq
            exact (h.fits w q hq').congr (congrArg Pool.fill (if_neg hqp)) (congrArg Pool.max (if_neg hqp))
          · show p :: s.pc.list .avail = [p]
            rw [havail]
          · show 0 < (if p = p then (⟨s.pc.slots p,s.pc.cap,s.pc.cap⟩ : Pool) else s.pool p).fill
            rw [if_pos rfl]
            exact hroom.cap_pos

theorem pcAlloc_inv {memGet : Option ℕ} (h : Inv ⟨s,live⟩) (hop : Proper ⟨s,live⟩ (.alloc memGet))
    (hwell : GoesWell ⟨s,live⟩ (.alloc memGet)) : ∃ t', pcStep ⟨s,live⟩ (.alloc memGet) = some t' ∧ Inv t' := by
  rcases pcAvail_spec h hop hwell with hnone | ⟨s1,p,hsome,hfound⟩
  · refine ⟨⟨s,live⟩,?_,h⟩
    rw [pcStep,pcAlloc]
    show Option.map _ ((pcAvail s memGet).bind _) = _
    rw [hnone]
    rfl
  · obtain ⟨y,s',htake,hy,-,hinv⟩ := pcTake_spec hfound
    refine ⟨⟨s',y :: live⟩,?_,hinv⟩
    rw [pcStep,pcAlloc]
    show Option.map _ ((pcAvail s memGet).bind _) = _
    rw [hsome,Option.bind_some]
    show Option.map _ (pcTake s1) = _
    rw [htake,Option.map_some]
    show some (Owned.mk s' (if y = 0 then live else y :: live)) = _
    rw [if_neg hy]

theorem pcAlloc_small (hroom : ¬s.pc.Roomy) (havail : s.pc.list .avail = []) (hfull : s.pc.list .full = [])
    (hmm : s.pc.mm = true) (hmax : s.pc.npools ≠ s.pc.maxpools) : pcStep ⟨s,live⟩ (.alloc (some p)) = none := by
  have hpg : (pcAddpg { s with held := p :: s.held } p s.pc.pgsiz).bind pcTake = none :=
    pcAddpg_small (s := { s with held := p :: s.held }) hroom
  have hgrow : pcAvail s (some p) = (pcAddpg { s with held := p :: s.held } p s.pc.pgsiz).map some := by
    rw [pcAvail,havail,if_neg (not_not.2 rfl),hfull]
    exact if_neg fun hn => hn.elim (fun hn => nomatch hmm.symm.trans hn) hmax
  rw [pcStep,pcAlloc]
  show Option.map _ ((pcAvail s (some p)).bind _) = none
  rw [hgrow]
  cases hadd : pcAddpg { s with held := p :: s.held } p s.pc.pgsiz with
  | none => rfl
  | some s1 =>
    rw [hadd,Option.bind_some] at hpg
    show Option.map _ (pcTake s1) = none
    rw [hpg]
    rfl

theorem Stocked.fill_zero (h : Stocked pc pool live p) : pool.fill = 0 ↔ ∀ x ∈ pc.slots p, x + padSize ∈ live := by
  rw [h.fill,List.length_eq_zero_iff,List.eq_nil_iff_forall_not_mem]
  refine forall_congr' fun x => ?_
  rw [h.mem x,not_and,not_not]

theorem Stocked.fill_max (h : Stocked pc pool live p) (hnd : (pc.slots p).Nodup) : pool.fill = pool.max ↔ ∀ x ∈ pc.slots p, x + padSize ∉ live := by
  have hsub := List.subperm_of_subset h.nodup fun x hx => ((h.mem x).1 hx).1
  rw [h.fill,h.max,← slots_length pc p]
  constructor
  · intro hlen x hx
    have hperm := hsub.perm_of_length_le (Nat.le_of_eq hlen.symm)
    exact ((h.mem x).1 (hperm.mem_iff.2 hx)).2
  · intro hfree
    exact Nat.le_antisymm hsub.length_le
      (List.subperm_of_subset hnd fun x hx => (h.mem x).2 ⟨hx,hfree x hx⟩).length_le

theorem pcRefill_spec (h : Inv ⟨s,live⟩) (hp : p ∈ s.held) (hx : x ∈ s.pc.slots p) (hl : x + padSize ∈ live) :
    (s.pool p).fill < (s.pool p).max ∧ ∃ l', pcRefill s p = some { s with pc := { s.pc with list := l' } } ∧
      Moves s.pc.list l' p .avail := by
  have hst := h.base.pool p hp
  have hroom := h.base.roomy hp
  have hle : (s.pool p).fill ≤ (s.pool p).max := by
    rw [hst.fill,hst.max,← slots_length s.pc p]
    exact (List.subperm_of_subset hst.nodup fun x hx => ((hst.mem x).1 hx).1).length_le
  have hne : (s.pool p).fill ≠ (s.pool p).max := fun he => (hst.fill_max (slots_nodup hroom)).1 he x hx hl
  refine ⟨Nat.lt_of_le_of_ne hle hne,?_⟩
  obtain ⟨w,hw⟩ := (h.base.mem p).1 hp
  have hfits := h.fits w p hw
  rw [pcRefill]
  by_cases hzero : (s.pool p).fill = 0
  · rw [if_pos hzero,rem_some hw]
    exact ⟨_,rfl,Moves.back s.pc.list p .avail h.base.nodup⟩
  · rw [if_neg hzero]
    have hwa : w = .avail := by
      cases w with
      | avail => rfl
      | full => exact (hne hfits).elim
      | empty => exact (hzero hfits).elim
    subst hwa
    refine ⟨s.pc.list,rfl,h.base.nodup,fun v => ⟨fun hv => h.base.one p v _ hv hw,?_⟩,fun _ _ _ => Iff.rfl⟩
    rintro rfl
    exact hw

theorem pcRelease_spec (h : Base s live) (hp : p ∈ s.held) (havail : p ∈ s.pc.list .avail) (hothers : FitsBut s p)
    (hpos : 0 < (s.pool p).fill) (hle : (s.pool p).fill ≤ (s.pool p).max) : ∃ s', pcRelease s p = some s' ∧ Inv ⟨s',live⟩ := by
  rw [pcRelease]
  by_cases hmax : (s.pool p).fill = (s.pool p).max
  · have hfree := ((h.pool p hp).fill_max (slots_nodup (h.roomy hp))).1 hmax
    rw [if_pos hmax,rem_some havail,Option.bind_some]
    split
    · refine ⟨_,rfl,h.release hp hfree,fun w q hq => ?_⟩
      obtain ⟨hq,hqp⟩ := mem_rem.1 hq
      exact hothers w q hq hqp
    · have hm := Moves.front s.pc.list p .full h.nodup
      refine ⟨_,rfl,h.refile hp hm,fun w q hq => ?_⟩
      by_cases hqp : q = p
      · subst hqp
        rw [(hm.self w).1 hq]
        exact hmax
      · exact hothers w q ((hm.other q hqp w).1 hq) hqp
  · rw [if_neg hmax]
    refine ⟨s,rfl,h,fun w q hq => ?_⟩
    by_cases hqp : q = p
    · subst hqp
      rw [h.one q w _ hq havail]
      exact ⟨hpos,Nat.lt_of_le_of_ne hle hmax⟩
    · exact hothers w q hq hqp

theorem pcFree_inv (h : Inv ⟨s,live⟩) (hy : y ∈ live) : ∃ t', pcStep ⟨s,live⟩ (.free y) = some t' ∧ Inv t' := by
  obtain ⟨p,hp,x,hx,rfl,hpad⟩ := h.base.live y hy
  obtain ⟨hlt,l1,hrefill,hm1⟩ := pcRefill_spec h hp hx hy
  have hb := (h.base.refile hp hm1).give hp hx hy
  have hset : (if p = p then plFree (s.pool p) x else s.pool p) = plFree (s.pool p) x := if_pos rfl
  obtain ⟨s',hrelease,hinv⟩ := pcRelease_spec hb hp ((hm1.self .avail).2 rfl)
    (fun w q hq hqp => (h.fits w q ((hm1.other q hqp w).1 hq)).congr (congrArg Pool.fill (if_neg hqp))
      (congrArg Pool.max (if_neg hqp)))
    (by show 0 < (if p = p then plFree (s.pool p) x else s.pool p).fill; rw [hset]; exact Nat.succ_pos _)
    (by
      show (if p = p then plFree (s.pool p) x else s.pool p).fill ≤ (if p = p then plFree (s.pool p) x else s.pool p).max
      rw [hset]
      exact hlt)
  have hcall : pcFree s (x + padSize) = (pcRefill s (s.pad x)).bind fun s' =>
      pcRelease (s'.setPool (s.pad x) (plFree (s'.pool (s.pad x)) x)) (s.pad x) := if_neg (Nat.succ_ne_zero _)
  refine ⟨⟨s',live.erase (x + padSize)⟩,?_,hinv⟩
  rw [pcStep,hcall,hpad,hrefill,Option.bind_some]
  show Option.map _ (pcRelease (({ s with pc := { s.pc with list := l1 } } : PcState).setPool p (plFree (s.pool p) x)) p) = _
  rw [hrelease]
  rfl

theorem pcFreeall_inv (h : Inv ⟨s,[]⟩) : pcStep ⟨s,[]⟩ .freeall = some ⟨s,[]⟩ := by
  have hall : ∀ p w, p ∈ s.pc.list w → w = .full := by
    intro p w hw
    have hp : p ∈ s.held := (h.base.mem p).2 ⟨w,hw⟩
    have hst := h.base.pool p hp
    have hroom := h.base.roomy hp
    have hmax := (hst.fill_max (slots_nodup hroom)).2 fun _ _ => List.not_mem_nil
    have hfits := h.fits w p hw
    have hcap := hroom.cap_pos
    have hm := hst.max
    cases w with
    | avail => exact (Nat.ne_of_lt hfits.2 hmax).elim
    | full => rfl
    | empty =>
      have hzero : (s.pool p).fill = 0 := hfits
      exact absurd (hzero.symm.trans (hmax.trans hm)) (Nat.ne_of_lt hcap)
  have havail : s.pc.list .avail = [] := List.eq_nil_iff_forall_not_mem.2 fun p hp => nomatch hall p _ hp
  have hempty : s.pc.list .empty = [] := List.eq_nil_iff_forall_not_mem.2 fun p hp => nomatch hall p _ hp
  have hlist : (fun w => if w = .full then s.pc.list w else []) = s.pc.list := by
    funext w
    cases w with
    | avail => exact havail.symm
    | full => rfl
    | empty => exact hempty.symm
  rw [pcStep,pcFreeall]
  split
  · rfl
  · rw [havail,hempty]
    show some (Owned.mk { s with pc := { s.pc with list := fun w => if w = .full then s.pc.list w else [] } } []) = _
    rw [hlist]

/-! ## Runs -/

theorem Inv.fine {t : Owned} (h : Inv t) : Fine t := by
  have hb := h.base
  have hzero : ∀ p ∈ t.s.held, ((t.s.pool p).fill = 0 ↔ ∀ x ∈ t.s.pc.slots p, x + padSize ∈ t.live) :=
    fun p hp => (hb.pool p hp).fill_zero
  have hmax : ∀ p ∈ t.s.held, ((t.s.pool p).fill = (t.s.pool p).max ↔ ∀ x ∈ t.s.pc.slots p, x + padSize ∉ t.live) :=
    fun p hp => (hb.pool p hp).fill_max (slots_nodup (hb.roomy hp))
  have hlist : ∀ p w, p ∈ t.s.pc.list w ↔ p ∈ t.s.held ∧ Fits (t.s.pool p) w := by
    intro p w
    constructor
    · exact fun hw => ⟨(hb.mem p).2 ⟨w,hw⟩,h.fits w p hw⟩
    · rintro ⟨hp,hw⟩
      obtain ⟨v,hv⟩ := (hb.mem p).1 hp
      have hfv := h.fits v p hv
      have hm := (hb.pool p hp).max
      have hcap := (hb.roomy hp).cap_pos
      have hvw : v = w := by
        cases v <;> cases w <;> first | rfl | (simp only [Fits] at hfv hw; omega)
      rw [← hvw]
      exact hv
  refine ⟨hb.nodup,fun p => ?_,fun p => ?_,fun p => ?_,hb.num,fun y hy => ?_,hb.owner⟩
  · rw [hlist p]
    exact and_congr_right (hzero p)
  · rw [hlist p]
    exact and_congr_right (hmax p)
  · rw [hlist p]
    refine and_congr_right fun hp => ?_
    have hle : (t.s.pool p).fill ≤ (t.s.pool p).max := by
      have hst := hb.pool p hp
      rw [hst.fill,hst.max,← slots_length t.s.pc p]
      exact (List.subperm_of_subset hst.nodup fun x hx => ((hst.mem x).1 hx).1).length_le
    have hz := not_congr (hzero p hp)
    have hx := not_congr (hmax p hp)
    simp only [not_forall, exists_prop, not_not] at hz hx
    rw [← hx,← hz,Fits]
    omega
  · obtain ⟨p,hp,x,hx,hyx,-⟩ := hb.live y hy
    refine ⟨p,⟨hp,x,hx,hyx⟩,?_⟩
    rintro q ⟨hq,z,hz,hyz⟩
    obtain rfl := Nat.add_right_cancel (hyx.symm.trans hyz)
    exact hb.apart hq hp hz hx

theorem step_inv {t : Owned} {op : PcOp} (h : Inv t) (hop : Proper t op) (hwell : GoesWell t op) :
    ∃ t', pcStep t op = some t' ∧ Inv t' := by
  obtain ⟨s,live⟩ := t
  cases op with
  | alloc memGet => exact pcAlloc_inv h hop hwell
  | free item => exact pcFree_inv h hop
  | freeall =>
    have hlive : live = [] := hop
    subst hlive
    exact ⟨_,pcFreeall_inv h,h⟩

theorem step_meets {t : Owned} {op : PcOp} (h : Inv t) (hop : Proper t op) : Meets t op ↔ GoesWell t op := by
  constructor
  · rintro ⟨t',hstep,-,hheld⟩
    obtain ⟨s,live⟩ := t
    cases op with
    | alloc memGet =>
      intro havail hfull hmm hmax hget
      by_contra hroom
      cases memGet with
      | none => exact hget rfl
      | some p =>
        rw [pcAlloc_small hroom havail hfull hmm hmax] at hstep
        cases hstep
    | free item => exact trivial
    | freeall =>
      have hlive : live = [] := hop
      subst hlive
      rw [pcFreeall_inv h] at hstep
      cases hstep
      have hnum : s.pc.npools = s.held.length := h.base.num
      have hnone : s.held = [] := hheld rfl
      show s.pc.npools = 0
      rw [hnum,hnone]
      rfl
  · intro hwell
    obtain ⟨t',hstep,hinv⟩ := step_inv h hop hwell
    refine ⟨t',hstep,hinv.fine,?_⟩
    rintro rfl
    obtain ⟨s,live⟩ := t
    have hlive : live = [] := hop
    subst hlive
    rw [pcFreeall_inv h] at hstep
    cases hstep
    have hnum : s.pc.npools = s.held.length := h.base.num
    exact List.length_eq_zero_iff.1 (hnum.symm.trans hwell)

theorem start_inv {asiz pgsiz hiwat maxpools : ℕ} {mm : Bool} (hmax : maxpools < 2 ^ 32)
    (hinit : pcInit asiz pgsiz hiwat maxpools mm = some pc) : Inv (.start pc) := by
  rw [pcInit] at hinit
  split at hinit
  · cases hinit
  cases hinit
  refine ⟨⟨fun _ => List.nodup_nil,nofun,fun p => ⟨nofun,fun ⟨w,hw⟩ => nomatch hw⟩,List.nodup_nil,rfl,Nat.zero_le _,?_,
    fun hne => (hne rfl).elim,nofun,nofun,List.nodup_nil,nofun⟩,nofun⟩
  show (if maxpools = 0 then 2 ^ 32 - 1 else maxpools) < 2 ^ 32
  split <;> omega

/-- The runs of an initialised cache: every call is right exactly when every page that is added has
room for an item, and everything is freed at once only when there is no page. -/
theorem pcRun_meets {asiz pgsiz hiwat maxpools : ℕ} {mm : Bool} (hmax : maxpools < 2 ^ 32)
    (hinit : pcInit asiz pgsiz hiwat maxpools mm = some pc) (ops : List PcOp)
    (hops : Along (fun t op t' => pcStep t op = some t') Proper ops (.start pc)) :
    Fine (.start pc) ∧ (Along (fun t op t' => pcStep t op = some t') Meets ops (.start pc) ↔
      Along (fun t op t' => pcStep t op = some t') GoesWell ops (.start pc)) := by
  have hstart := start_inv hmax hinit
  refine ⟨hstart.fine,Along.iff (P := Meets) (Q := GoesWell) (fun t op h hop => step_meets h hop) ?_ hstart hops⟩
  intro t op h hop hmeets t' hstep
  obtain ⟨t1,hstep1,hinv⟩ := step_inv h hop ((step_meets h hop).1 hmeets)
  rw [hstep1] at hstep
  cases hstep
  exact hinv

/-- A cache of items of 8 bytes in pages of two. -/
def pairs : Pcache := ⟨fun _ => [],16,88,0,2 ^ 32 - 1,0,true⟩

theorem pcRun_meets_alloc : Fine (.start pairs) ∧
    (Along (fun t op t' => pcStep t op = some t') Meets [.alloc (some 4096)] (.start pairs) ↔
      Along (fun t op t' => pcStep t op = some t') GoesWell [.alloc (some 4096)] (.start pairs)) := by
  have hmax : (0 : ℕ) < 2 ^ 32 := by decide
  have hinit : pcInit 8 88 0 0 true = some pairs := rfl
  refine pcRun_meets hmax hinit _ ⟨?_,fun _ _ => trivial⟩
  rintro p hp
  cases hp
  exact ⟨by decide,by decide,nofun⟩

/-- An item is taken and given back, and `pc_freeall` leaves its page where it is; and a page that
`pc_init` accepts for items of 16 bytes is too small for `pc_addpg`. -/
theorem pcRun_leaks : (pcInit 8 88 0 0 true = some pairs ∧
      ¬Along (fun t op t' => pcStep t op = some t') Meets [.alloc (some 4096),.free 4160,.freeall] (.start pairs)) ∧
    ∃ pc, pcInit 16 72 0 0 true = some pc ∧ pcStep (.start pc) (.alloc (some 4096)) = none := by
  refine ⟨⟨rfl,?_⟩,_,rfl,rfl⟩
  rintro ⟨-,h1⟩
  obtain ⟨-,h2⟩ := h1 _ rfl
  obtain ⟨⟨t',h3,-,h4⟩,-⟩ := h2 _ rfl
  cases h3
  cases h4 rfl

end Catlib.PoolCache
