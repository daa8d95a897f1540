import Catlib.Alloc.FirstFitCalls
import Catlib.Logic.Runs

/-! # Runs of the first-fit heap

A client adds pools, allocates, frees, reallocates and writes into what it owns. The heap stays well
formed as long as no call takes a branch that goes wrong.
-/
namespace Catlib.Alloc

open Function

/-- A call of a client, or a store of one word. -/
inductive DmCall where
  | addPool (mem len : ℕ)
  | malloc (amt : ℕ)
  | free (mem : ℕ)
  | realloc (omem newamt : ℕ)
  | write (w v : ℕ)

/-- A heap, the regions that it was given, and the live pointers with the sizes asked for. -/
structure DmState where
  dm : Dynmem
  regions : List (ℕ × ℕ)
  live : ℕ → Option ℕ

/-- Behind `dynmem_init`; `dm_blocks` comes behind `dm_pools` in the record. -/
def dmStart (m : Mem) (pools : ℕ) : DmState := ⟨dynmemInit m pools (pools + 16),[],fun _ => none⟩

/-- The call, and what the client makes of its result. `add_mem_func` is not set. -/
def DmState.call (s : DmState) : DmCall → Option DmState
  | .addPool mem len => (dynmemAddPool s.dm mem len).map fun dm => { s with dm := dm, regions := (mem,len) :: s.regions }
  | .malloc amt => (dynmemMalloc none s.dm amt).map fun (p,dm) =>
    { s with dm := dm, live := if p = 0 then s.live else update s.live p (some amt) }
  | .free mem => some { s with dm := dynmemFree s.dm mem, live := update s.live mem none }
  | .realloc omem newamt => (dynmemRealloc none s.dm omem newamt).map fun (p,dm) =>
    { s with dm := dm, live := if newamt = 0 then update s.live omem none else if p = 0 then s.live
      else update (update s.live omem none) p (some newamt) }
  | .write w v => some { s with dm := { s.dm with mem := put s.dm.mem w v } }

/-- What a client may ask for: pools in regions of their own, sizes of a `size_t`, live pointers, and
stores into what it owns. -/
def DmState.Proper (s : DmState) : DmCall → Prop
  | .addPool mem len => minasz ≤ len ∧ 8 ∣ mem ∧ 0 < mem ∧ mem + len ≤ 2 ^ 64 ∧
    (∀ r ∈ s.regions, mem + len ≤ r.1 ∨ r.1 + r.2 ≤ mem) ∧ ∀ j, s.dm.heads j + 16 ≤ mem ∨ mem + len ≤ s.dm.heads j
  | .malloc amt => amt < 2 ^ 64
  | .free mem => mem = 0 ∨ s.live mem ≠ none
  | .realloc omem newamt => (omem = 0 ∨ s.live omem ≠ none) ∧ newamt < 2 ^ 64
  | .write w _ => ∃ p n, s.live p = some n ∧ p ≤ w ∧ w < p + n

/-- The calls that take no branch that goes wrong: a pool has room for its record, its sentinel and a
block, no block is joined or taken that `dm_current` is on, and `dynmem_realloc` neither makes a
block too small nor makes one in front of a block in use. -/
def DmState.Clean (s : DmState) : DmCall → Prop
  | .addPool _ len => poolSize + unitsize + minsz ≤ len
  | .malloc _ => True
  | .free mem => mem ≠ 0 → FreeClean s.dm mem
  | .realloc omem newamt => ReallocClean s.dm omem newamt
  | .write _ _ => True

/-- The states of a client's runs. -/
abbrev DmRun (P : DmState → DmCall → Prop) (m : Mem) (pools : ℕ) : DmState → Prop :=
  Reach (fun s c s' => s.call c = some s') P (dmStart m pools)

/-- The arenas of the pools. -/
def DmState.arenas (s : DmState) : List Arena := s.regions.map fun r => poolArena r.1 r.2

/-- There is a layout of blocks for the pools that the tags and the ring of free blocks agree with. -/
def DmState.WellFormed (s : DmState) : Prop := ∃ B F, FirstFit s.arenas B F s.dm

/-- A well-formed heap that serves its clients. -/
def DmState.Good (s : DmState) : Prop := ∃ B F, FirstFit s.arenas B F s.dm ∧ Serves (InUse B) s.live

variable {s : DmState} {m : Mem} {pools amt mem len : ℕ}

theorem DmState.Good.wellFormed (h : s.Good) : s.WellFormed :=
  let ⟨B,F,g,_⟩ := h
  ⟨B,F,g⟩

theorem dmStart_good (hpools : 0 < pools) : (dmStart m pools).Good := by
  have hheads : ∀ j, (dmStart m pools).dm.heads j = pools ∨ (dmStart m pools).dm.heads j = pools + 16 := by
    rintro (_ | _)
    · exact .inl rfl
    · exact .inr rfl
  have hself : ∀ j, (dmStart m pools).dm.mem ((dmStart m pools).dm.heads j) = (dmStart m pools).dm.heads j ∧
      (dmStart m pools).dm.mem ((dmStart m pools).dm.heads j + 8) = (dmStart m pools).dm.heads j := by
    rintro (_ | _)
    · refine ⟨?_,?_⟩
      · change put (put (put (put m pools pools) (pools + 8) pools) (pools + 16) (pools + 16)) (pools + 16 + 8) (pools + 16) pools = pools
        rw [put_ne (by omega),put_ne (by omega),put_ne (by omega),put_self]
      · change put (put (put (put m pools pools) (pools + 8) pools) (pools + 16) (pools + 16)) (pools + 16 + 8) (pools + 16) (pools + 8) =
          pools
        rw [put_ne (by omega),put_ne (by omega),put_self]
    · refine ⟨?_,put_self _ _ _⟩
      change put (put (lInit m pools) (pools + 16) (pools + 16)) (pools + 16 + 8) (pools + 16) (pools + 16) = pools + 16
      rw [put_ne (by omega),put_self]
  have hnode : ∀ a, Node (dmStart m pools).dm.heads (fun _ => none) a → a = pools ∨ a = pools + 16 := by
    rintro a (⟨j,rfl⟩ | ⟨j,hj⟩)
    · exact hheads j
    · cases hj
  refine ⟨fun _ => none,fun _ => none,⟨⟨⟨nofun,nofun,nofun,nofun,nofun⟩,nofun,nofun,nofun,nofun,nofun,nofun,nofun,nofun,
    ⟨⟨fun _ => [],fun j => ⟨ring_nil.2 (hself j),List.nodup_nil,fun n => iff_of_false nofun nofun⟩⟩,?_,fun _ => rfl,?_,?_⟩,?_⟩,
    .inl rfl,rfl⟩,⟨fun c s ⟨u,hu,_⟩ => ?_,nofun⟩⟩
  · rintro (_ | _) (_ | _) h
    · rfl
    · have h : pools = pools + 16 := h
      omega
    · have h : pools + 16 = pools := h
      omega
    · rfl
  · intro a b ha hb
    have := hnode a ha
    have := hnode b hb
    unfold Apart
    omega
  · intro a ha
    have := hnode a ha
    omega
  · intro n j
    refine iff_of_false nofun ?_
    rintro (⟨-,p,hp,-⟩ | ⟨a,x,-,ha,-⟩)
    · cases hp
    · cases ha
  · cases hu

/-! ## One call -/

theorem good_addPool (h : s.Good) (hp : s.Proper (.addPool mem len)) (hc : s.Clean (.addPool mem len)) :
    ∃ s', s.call (.addPool mem len) = some s' ∧ s'.Good := by
  obtain ⟨B,F,g,hserves⟩ := h
  obtain ⟨-,h8,h0,hfit,hregions,hheads⟩ := hp
  have hfar : ∀ q ∈ s.arenas, mem + len ≤ q.base ∨ q.stop + 8 ≤ mem := by
    intro q hq
    obtain ⟨r,hr,rfl⟩ := List.mem_map.1 hq
    have horder := g.heap.tiled.order _ hq
    have hdiv := Nat.div_mul_le_self r.2 unitsize
    refine (hregions r hr).imp id fun h => ?_
    simp only [poolArena, unitsize] at horder hdiv ⊢
    omega
  obtain ⟨dm',B',F',hcall,g',-,-,huse,-⟩ := addPool_spec g hc h8 h0 hfit hfar hheads
  exact ⟨⟨dm',(mem,len) :: s.regions,s.live⟩,by rw [DmState.call,hcall]; rfl,B',F',g',hserves.congr huse⟩

theorem good_malloc (h : s.Good) (hp : s.Proper (.malloc amt)) : ∃ s', s.call (.malloc amt) = some s' ∧ s'.Good := by
  obtain ⟨B,F,g,hserves⟩ := h
  obtain ⟨p,dm',hcall,-,-,⟨rfl,rfl,-⟩ | ⟨a,B',F',k,rfl,g',hk,hnew,huse⟩⟩ := malloc_spec g hp
  · exact ⟨s,by rw [DmState.call,hcall]; rfl,B,F,g,hserves⟩
  · exact ⟨⟨dm',s.regions,_⟩,by rw [DmState.call,hcall]; rfl,B',F',g',hserves.add huse hnew hk⟩

theorem good_free (h : s.Good) (hp : mem = 0 ∨ s.live mem ≠ none) (hc : mem ≠ 0 → FreeClean s.dm mem) :
    ({ s with dm := dynmemFree s.dm mem, live := update s.live mem none } : DmState).Good := by
  obtain ⟨B,F,g,hserves⟩ := h
  by_cases h0 : mem = 0
  · have hlive : update s.live mem none = s.live := by
      rw [h0,← hserves.zero,update_eq_self]
    refine ⟨B,F,?_,?_⟩
    · have hsame : dynmemFree s.dm mem = s.dm := if_pos (.inr h0)
      rw [hsame]
      exact g
    · rw [hlive]
      exact hserves
  · obtain ⟨n,hn⟩ := Option.ne_none_iff_exists'.1 (hp.resolve_left h0)
    obtain ⟨a,k,rfl,hu⟩ := hserves.held mem n hn
    obtain ⟨B',F',g',-,-,huse⟩ := free_spec g hu (hc h0)
    exact ⟨B',F',g',hserves.drop huse⟩

theorem good_realloc (h : s.Good) (hp : s.Proper (.realloc mem amt)) (hc : s.Clean (.realloc mem amt)) :
    ∃ s', s.call (.realloc mem amt) = some s' ∧ s'.Good := by
  obtain ⟨hmem,hamt⟩ := hp
  have hc : ReallocClean s.dm mem amt := hc
  by_cases h0 : amt = 0
  · rw [ReallocClean,if_pos h0] at hc
    refine ⟨_,?_,good_free h hmem hc⟩
    rw [DmState.call,dynmemRealloc,if_pos h0]
    dsimp only [Option.map_some]
    rw [if_pos h0]
  · obtain ⟨B,F,g,hserves⟩ := h
    by_cases hnull : mem = 0
    · obtain ⟨s',hs',hgood⟩ := good_malloc ⟨B,F,g,hserves⟩ (show s.Proper (.malloc amt) from hamt)
      refine ⟨s',?_,hgood⟩
      have hlive : update s.live mem none = s.live := by
        rw [hnull,← hserves.zero,update_eq_self]
      rw [← hs',DmState.call,DmState.call,dynmemRealloc,if_neg h0,if_pos hnull]
      simp only [if_neg h0, hlive]
    · obtain ⟨n,hn⟩ := Option.ne_none_iff_exists'.1 (hmem.resolve_left hnull)
      obtain ⟨a,k,rfl,hu⟩ := hserves.held mem n hn
      obtain ⟨p,dm',hcall,-,-,⟨rfl,rfl⟩ | ⟨b,B',F',t,rfl,g',ht,hnew,huse⟩⟩ := realloc_spec g hu h0 hc
      · refine ⟨s,?_,B,F,g,hserves⟩
        rw [DmState.call,hcall]
        simp only [Option.map_some, if_neg h0, if_true]
      · refine ⟨⟨dm',s.regions,update (update s.live (a + 8) none) (b + 8) (some amt)⟩,?_,B',F',g',hserves.move huse hnew ht⟩
        rw [DmState.call,hcall]
        simp only [Option.map_some, if_neg h0, if_neg (Nat.succ_ne_zero _)]

theorem good_write {w v : ℕ} (h : s.Good) (hp : s.Proper (.write w v)) : ({ s with dm := { s.dm with mem := put s.dm.mem w v } } : DmState).Good := by
  obtain ⟨B,F,g,hserves⟩ := h
  obtain ⟨p,n,hlive,hpw,hw⟩ := hp
  obtain ⟨a,k,rfl,hu,hk⟩ := hserves.block hlive
  refine ⟨B,F,g.client fun x hx => ?_,hserves⟩
  by_cases hxw : x = w
  · exact ⟨a,k,hu,by omega,by omega⟩
  · rw [put_ne hxw] at hx
    exact absurd rfl hx

theorem good_call {c : DmCall} (h : s.Good) (hp : s.Proper c) (hc : s.Clean c) : ∃ s', s.call c = some s' ∧ s'.Good := by
  cases c with
  | addPool mem len => exact good_addPool h hp hc
  | malloc amt => exact good_malloc h hp
  | free mem => exact ⟨_,rfl,good_free h hp hc⟩
  | realloc omem newamt => exact good_realloc h hp hc
  | write w v => exact ⟨_,rfl,good_write h hp⟩

/-! ## Runs -/

/-- In every run of calls that take no branch that goes wrong, the heap is well formed in every state,
and the next such call has a result. -/
theorem dmRun_wellFormed (hpools : 0 < pools) (h : DmRun (fun s c => s.Proper c ∧ s.Clean c) m pools s) :
    s.WellFormed ∧ ∀ c, s.Proper c → s.Clean c → ∃ s', s.call c = some s' := by
  have hgood : s.Good := h.inv (I := DmState.Good) (fun t c u ht hp hu => by
    obtain ⟨u',hu',hgood⟩ := good_call ht hp.1 hp.2
    obtain rfl := Option.some.inj (hu.symm.trans hu')
    exact hgood) (dmStart_good hpools)
  exact ⟨hgood.wellFormed,fun c hp hc => let ⟨s',hs',_⟩ := good_call hgood hp hc; ⟨s',hs'⟩⟩

theorem dmRun_wellFormed_malloc : ∃ s, ((dmStart (fun _ => 0) 8).call (.addPool 64 128)).bind (·.call (.malloc 8)) = some s ∧ s.WellFormed := by
  obtain ⟨s1,h1⟩ : ∃ s1, (dmStart (fun _ => 0) 8).call (.addPool 64 128) = some s1 := ⟨_,rfl⟩
  have hrun : DmRun (fun s c => s.Proper c ∧ s.Clean c) (fun _ => 0) 8 s1 := by
    refine Reach.start.step (i := .addPool 64 128) ⟨⟨by decide,by decide,by decide,by decide,nofun,?_⟩,?_⟩ h1
    · intro j
      match j with
      | none => decide
      | some () => decide
    · exact (by decide : poolSize + unitsize + minsz ≤ 128)
  obtain ⟨s2,h2⟩ := (dmRun_wellFormed (by decide) hrun).2 (.malloc 8) (by decide : 8 < 2 ^ 64) trivial
  exact ⟨s2,by rw [h1]; exact h2,(dmRun_wellFormed (by decide) (hrun.step (i := .malloc 8) ⟨(by decide : 8 < 2 ^ 64),trivial⟩ h2)).1⟩

/-- A block that is freed where `dm_current` is on the one behind it is not on the ring of free blocks. -/
theorem dmRun_lost : ¬∀ m pools s, 0 < pools → DmRun DmState.Proper m pools s → s.WellFormed := by
  intro h
  have hall : (((dmStart (fun _ => 0) 8).call (.addPool 64 128)).bind fun s1 => (s1.call (.malloc 8)).bind fun s2 =>
      (s2.call (.free 112)).map fun s3 => ((s2.live 112,s3.regions),s3.dm.mem 24,s3.dm.mem 104,s3.dm.blocks)) =
        some ((some 8,[(64,128)]),24,82,24) := by
    decide +kernel
  obtain ⟨s1,h1,hrest⟩ := Option.bind_eq_some_iff.1 hall
  obtain ⟨s2,h2,hrest⟩ := Option.bind_eq_some_iff.1 hrest
  obtain ⟨s3,h3,hs⟩ := Option.map_eq_some_iff.1 hrest
  obtain ⟨⟨hlive,hregions⟩,hhead,htag,hblocks⟩ : (s2.live 112 = some 8 ∧ s3.regions = [(64,128)]) ∧ s3.dm.mem 24 = 24 ∧
      s3.dm.mem 104 = 82 ∧ s3.dm.blocks = 24 := by
    simpa only [Prod.mk.injEq] using hs
  have hrun1 : DmRun DmState.Proper (fun _ => 0) 8 s1 := by
    refine Reach.start.step (i := .addPool 64 128) ⟨by decide,by decide,by decide,by decide,nofun,?_⟩ h1
    intro j
    match j with
    | none => decide
    | some () => decide
  have hfree : s2.Proper (.free 112) := .inr (by rw [hlive]; exact nofun)
  have hsize : s1.Proper (.malloc 8) := (by decide : 8 < 2 ^ 64)
  have hrun3 := (hrun1.step hsize h2).step hfree h3
  obtain ⟨B,F,g⟩ := h _ 8 s3 (by decide) hrun3
  -- the first block of the pool is free, but the ring of free blocks is empty
  have hmem : poolArena 64 128 ∈ s3.arenas := by
    rw [DmState.arenas,hregions]
    exact List.mem_singleton.2 rfl
  obtain ⟨x,hx⟩ := g.heap.tiled.first hmem
  have hx : B 104 = some x := hx
  have hfree : x.kind = .free := (g.heap.alloc_zero hx).1 (by rw [htag]; rfl)
  have hF : F (entry 104) = some (some ()) := (g.heap.listed _ _).2 (.inr ⟨104,x,rfl,hx,hfree,not_false,rfl⟩)
  have hempty : s3.dm.mem (s3.dm.heads (some ())) = s3.dm.heads (some ()) := by
    change s3.dm.mem s3.dm.blocks = s3.dm.blocks
    rw [hblocks,hhead]
  exact (g.heap.rings.empty_iff.1 hempty) _ hF

end Catlib.Alloc
