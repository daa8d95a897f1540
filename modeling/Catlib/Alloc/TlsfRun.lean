import Catlib.Alloc.TlsfRealloc
import Catlib.Logic.Runs

/-! # Runs of the two-level heap

A client adds pools, allocates, frees, reallocates and writes into what it owns. Without `tlsf_realloc`
to a few bytes the heap stays well formed, and what is freed comes back in full.
-/
namespace Catlib.Alloc

open Function

/-- A call of a client, or a store of one word. -/
inductive TlsfCall where
  | addPool (mem len : ℕ)
  | malloc (amt : ℕ)
  | free (mem : ℕ)
  | realloc (omem newamt : ℕ)
  | write (w v : ℕ)

/-- A heap, the regions that it was given, and the live pointers with the sizes asked for. -/
structure TlsfState where
  heap : Tlsf
  regions : List (ℕ × ℕ)
  live : ℕ → Option ℕ

/-- Behind `tlsf_init`. -/
def tlsfStart (m : Mem) (tlsf : ℕ) : TlsfState := ⟨tlsfInit m tlsf,[],fun _ => none⟩

/-- The call, and what the client makes of its result. `add_mem_func` is not set, so there is one search. -/
def TlsfState.call (s : TlsfState) : TlsfCall → Option TlsfState
  | .addPool mem len => (tlsfAddPool s.heap mem len).map fun t => { s with heap := t, regions := (mem,len) :: s.regions }
  | .malloc amt => (tlsfMalloc none 1 s.heap amt).map fun (p,t) =>
    { s with heap := t, live := if p = 0 then s.live else update s.live p (some amt) }
  | .free mem => (tlsfFree s.heap mem).map fun t => { s with heap := t, live := update s.live mem none }
  | .realloc omem newamt => (tlsfRealloc none 1 s.heap omem newamt).map fun (p,t) =>
    { s with heap := t, live := if newamt = 0 then update s.live omem none else if p = 0 then s.live
      else update (update s.live omem none) p (some newamt) }
  | .write w v => some { s with heap := { s.heap with mem := put s.heap.mem w v } }

/-- What a client may ask for: pools in regions of their own that are large enough, lengths below 2^30,
live pointers, and stores into what it owns. -/
def TlsfState.Proper (s : TlsfState) : TlsfCall → Prop
  | .addPool mem len => 88 ≤ len ∧ len < 2 ^ 30 ∧ 8 ∣ mem ∧ 0 < mem ∧ mem + len ≤ 2 ^ 64 ∧
    (∀ r ∈ s.regions, mem + len ≤ r.1 ∨ r.1 + r.2 ≤ mem) ∧ (mem + len ≤ s.heap.pools ∨ s.heap.pools + tlsfSize ≤ mem)
  | .malloc amt => amt < 2 ^ 30
  | .free mem => mem = 0 ∨ s.live mem ≠ none
  | .realloc omem newamt => (omem = 0 ∨ s.live omem ≠ none) ∧ newamt < 2 ^ 30
  | .write w _ => ∃ p n, s.live p = some n ∧ p ≤ w ∧ w < p + n

/-- No block is cut to less than it takes to free it: `tlsf_realloc` to 16 bytes or less does not cut. -/
def TlsfState.Clean (s : TlsfState) : TlsfCall → Prop
  | .realloc omem newamt => omem ≠ 0 → newamt ≠ 0 → newamt ≤ 16 → ¬Cuts s.heap (omem - unitsize) (round2u newamt + unitsize)
  | _ => True

/-- The calls but `tlsf_realloc`. -/
def TlsfCall.Plain : TlsfCall → Prop
  | .realloc _ _ => False
  | _ => True

/-- The states of a client's runs. -/
abbrev TlsfRun (P : TlsfState → TlsfCall → Prop) (m : Mem) (tlsf : ℕ) : TlsfState → Prop :=
  Reach (fun s c s' => s.call c = some s') P (tlsfStart m tlsf)

/-- The arenas of the pools. -/
def TlsfState.arenas (s : TlsfState) : List Arena := s.regions.map fun r => tlsfArena r.1 r.2

/-- There is a layout of blocks for the pools that the tags, the lists and the bitmaps agree with. -/
def TlsfState.WellFormed (tlsf : ℕ) (s : TlsfState) : Prop := ∃ B F, Seg tlsf s.arenas B (fun _ => False) s.heap F

/-- A well-formed heap that serves its clients. -/
def TlsfState.Good (tlsf : ℕ) (s : TlsfState) : Prop :=
  ∃ B F, Seg tlsf s.arenas B (fun _ => False) s.heap F ∧ Serves (InUse B) s.live

variable {s s' : TlsfState} {m : Mem} {tlsf amt mem len p n w v : ℕ} {t : Tlsf}

theorem TlsfState.Good.wellFormed (h : s.Good tlsf) : s.WellFormed tlsf :=
  let ⟨B,F,g,_⟩ := h
  ⟨B,F,g⟩

theorem tlsfStart_good (m : Mem) (htlsf : 0 < tlsf) : (tlsfStart m tlsf).Good tlsf := by
  refine ⟨_,_,tlsfInit_spec m htlsf,?_,nofun⟩
  rintro c k ⟨x,hx,-⟩
  cases hx

/-! ## One call -/

namespace TlsfState.Good

theorem addPool (h : s.Good tlsf) (hp : s.Proper (.addPool mem len)) : ∃ s', s.call (.addPool mem len) = some s' ∧ s'.Good tlsf := by
  obtain ⟨B,F,g,hserves⟩ := h
  obtain ⟨hmin,hlt,h8,h0,hfit,hregions,hrecord⟩ := hp
  have hfresh : Fresh tlsf s.arenas mem len := by
    refine ⟨h8,h0,hfit,fun q hq => ?_,fun j => ?_⟩
    · obtain ⟨r,hr,rfl⟩ := List.mem_map.1 hq
      have horder := g.heap.tiled.order _ hq
      have hdiv := Nat.div_mul_le_self r.2 unitsize
      refine (hregions r hr).imp id fun h => ?_
      simp only [tlsfArena, unitsize] at horder hdiv ⊢
      omega
    · have := tlsfHeads_le tlsf j
      rw [g.maps.pools] at hrecord
      omega
  obtain ⟨t,B',F',hcall,g',huse,-,-⟩ := tlsfAddPool_spec g (by omega) (by omega) hfresh
  exact ⟨⟨t,(mem,len) :: s.regions,s.live⟩,by rw [TlsfState.call,hcall]; rfl,B',F',g',hserves.congr huse⟩

theorem malloc (h : s.Good tlsf) (hp : s.Proper (.malloc amt)) : ∃ s', s.call (.malloc amt) = some s' ∧ s'.Good tlsf := by
  obtain ⟨B,F,g,hserves⟩ := h
  have hp : amt < 2 ^ 30 := hp
  rcases tlsfMalloc_none g (show amt < 2 ^ 30 + 64 by omega) 0 with hcall | ⟨a,k,t,B',F',hcall,g',hk,hgives⟩
  · exact ⟨s,by rw [TlsfState.call,hcall]; rfl,B,F,g,hserves⟩
  · exact ⟨⟨t,s.regions,_⟩,by rw [TlsfState.call,hcall]; rfl,B',F',g',hserves.add hgives.used hgives.new hk⟩

theorem free (h : s.Good tlsf) (hp : s.Proper (.free mem)) : ∃ s', s.call (.free mem) = some s' ∧ s'.Good tlsf := by
  obtain ⟨B,F,g,hserves⟩ := h
  by_cases h0 : mem = 0
  · subst h0
    have hlive : update s.live 0 none = s.live := by rw [← hserves.zero,update_eq_self]
    exact ⟨s,by rw [TlsfState.call,tlsfFree,if_pos rfl,hlive]; rfl,B,F,g,hserves⟩
  · obtain ⟨n,hn⟩ := Option.ne_none_iff_exists'.1 (hp.resolve_left h0)
    obtain ⟨a,k,rfl,hu⟩ := hserves.held mem n hn
    obtain ⟨t,B',F',hcall,g',hkeep⟩ := tlsfFree_spec g hu
    exact ⟨⟨t,s.regions,_⟩,by rw [TlsfState.call,hcall]; rfl,B',F',g',hserves.drop hkeep.used⟩

theorem write (h : s.Good tlsf) (hp : s.Proper (.write w v)) : ∃ s', s.call (.write w v) = some s' ∧ s'.Good tlsf := by
  obtain ⟨B,F,g,hserves⟩ := h
  obtain ⟨p,n,hlive,hpw,hw⟩ := hp
  obtain ⟨a,k,rfl,hu,hk⟩ := hserves.block hlive
  refine ⟨_,rfl,B,F,g.client fun x hx => ?_,hserves⟩
  by_cases hxw : x = w
  · exact ⟨a,k,hu,by omega,by omega⟩
  · rw [put_ne hxw] at hx
    exact absurd rfl hx

theorem realloc_block {B B' : Layout} {F' : ℕ → Option (Option Cls)} {a b k : ℕ} (hserves : Serves (InUse B) s.live) (h0 : n ≠ 0)
    (hcall : tlsfRealloc none 1 s.heap (a + 8) n = some (b + 8,t)) (g : Seg tlsf s.arenas B' (fun _ => False) t F')
    (huse : ∀ c u, InUse B' c u ↔ c ≠ a ∧ InUse B c u ∨ c = b ∧ u = k) (hnew : b ≠ a → ∀ u, ¬InUse B b u) (hroom : n + 8 ≤ k) :
    ∃ s', s.call (.realloc (a + 8) n) = some s' ∧ s'.Good tlsf := by
  refine ⟨⟨t,s.regions,update (update s.live (a + 8) none) (b + 8) (some n)⟩,?_,B',F',g,hserves.move huse hnew hroom⟩
  rw [TlsfState.call,hcall]
  simp only [Option.map_some, if_neg h0, if_neg (Nat.succ_ne_zero _)]

theorem realloc (h : s.Good tlsf) (hp : s.Proper (.realloc mem amt)) (hc : s.Clean (.realloc mem amt)) :
    ∃ s', s.call (.realloc mem amt) = some s' ∧ s'.Good tlsf := by
  obtain ⟨hmem,hlt⟩ := hp
  have hc : mem ≠ 0 → amt ≠ 0 → amt ≤ 16 → ¬Cuts s.heap (mem - unitsize) (round2u amt + unitsize) := hc
  by_cases h0 : amt = 0
  · obtain ⟨s',hs',hgood⟩ := h.free (show s.Proper (.free mem) from hmem)
    refine ⟨s',?_,hgood⟩
    rw [← hs',TlsfState.call,TlsfState.call,tlsfRealloc,if_pos h0,Option.map_map]
    simp only [h0, if_true, Function.comp_def]
  by_cases hnull : mem = 0
  · have hlive : update s.live mem none = s.live := by
      obtain ⟨B,F,-,hserves⟩ := h
      rw [hnull,← hserves.zero,update_eq_self]
    obtain ⟨s',hs',hgood⟩ := h.malloc (show s.Proper (.malloc amt) from hlt)
    refine ⟨s',?_,hgood⟩
    rw [← hs',TlsfState.call,TlsfState.call,tlsfRealloc,if_neg h0,if_pos hnull]
    simp only [if_neg h0, hlive]
  obtain ⟨B,F,g,hserves⟩ := h
  obtain ⟨l,hl⟩ := Option.ne_none_iff_exists'.1 (hmem.resolve_left hnull)
  obtain ⟨a,n,rfl,hu⟩ := hserves.held mem l hl
  obtain ⟨k,hk⟩ : ∃ k, round2u amt + unitsize = k := ⟨_,rfl⟩
  have hc := hc hnull h0
  rw [hk,show a + 8 - unitsize = a from rfl] at hc
  obtain ⟨hk8,hk1,hk2⟩ := need_spec hlt hk
  obtain ⟨hshrink,hgrow,hmove⟩ := tlsfRealloc_eq g hu (Nat.pos_of_ne_zero h0) hlt hk none 1
  obtain ⟨hn8,hn32⟩ : 8 ∣ n ∧ 32 ≤ n := by
    obtain ⟨x,ha,hx,rfl⟩ := hu
    exact ⟨g.heap.eights ha,g.heap.size ha (by rw [hx]; rintro ⟨⟩)⟩
  by_cases hkn : k ≤ n
  · obtain ⟨t,u,hcut,hu1,hu2,hres⟩ := tlsfShrinkBlk_spec g hu hk8 (by lia) hkn
    have hsize : k ≤ u ∧ 32 ≤ u := by
      by_cases hcuts : Cuts s.heap a k
      · have hamt : 16 < amt := not_le.1 fun h => hc h hcuts
        rw [hu1 hcuts]
        lia
      · rw [hu2 hcuts]
        exact ⟨hkn,hn32⟩
    obtain ⟨B',F',g',huse⟩ := hres.heap hsize.2
    exact realloc_block hserves h0 (by rw [hshrink hkn,hcut]; rfl) g' huse (fun h => absurd rfl h) (by lia)
  by_cases hm : Moves s.heap a k
  · obtain ⟨-,hcall⟩ := hmove hm
    rcases tlsfMalloc_none g (show k < 2 ^ 30 + 64 by lia) 0 with hnone | ⟨b,u,t1,B1,F1,hsome,g1,hku,hgives⟩
    · refine ⟨s,?_,B,F,g,hserves⟩
      rw [hnone,Option.bind_some] at hcall
      dsimp only at hcall
      rw [if_pos rfl] at hcall
      rw [TlsfState.call,hcall]
      simp only [Option.map_some, if_neg h0, if_true]
    · obtain ⟨t2,B2,F2,hfree,g2,huse,hnew,-⟩ := tlsfCopy_spec g1 hgives hu (by lia)
      rw [hsome,Option.bind_some] at hcall
      dsimp only at hcall
      rw [if_neg (Nat.succ_ne_zero _),hfree] at hcall
      exact realloc_block hserves h0 hcall g2 huse hnew (by lia)
  · obtain ⟨hcall,hzero,hfit⟩ := hgrow (not_le.1 hkn) hm
    obtain ⟨t1,B1,F1,u,hgrown,g1,hku,huse,-⟩ := tlsfGrowBlk_spec g hu hzero (Nat.dvd_sub hk8 hn8) (by lia) hfit
    exact realloc_block hserves h0 (hcall.trans hgrown) g1 huse (fun h => absurd rfl h) (by lia)

theorem call {c : TlsfCall} (h : s.Good tlsf) (hp : s.Proper c) (hc : s.Clean c) : ∃ s', s.call c = some s' ∧ s'.Good tlsf := by
  cases c with
  | addPool mem len => exact h.addPool hp
  | malloc amt => exact h.malloc hp
  | free mem => exact h.free hp
  | realloc omem newamt => exact h.realloc hp hc
  | write w v => exact h.write hp

theorem run (htlsf : 0 < tlsf) (h : TlsfRun (fun s c => s.Proper c ∧ s.Clean c) m tlsf s) : s.Good tlsf :=
  h.inv (I := TlsfState.Good tlsf) (fun t c u ht hp hu => by
    obtain ⟨u',hu',hgood⟩ := ht.call hp.1 hp.2
    obtain rfl := Option.some.inj (hu.symm.trans hu')
    exact hgood) (tlsfStart_good m htlsf)

end TlsfState.Good

/-! ## Runs -/

/-- In every run where no block is cut too short, the heap is well formed in every state, and the next
such call has a result. -/
theorem tlsfRun_wellFormed (htlsf : 0 < tlsf) (h : TlsfRun (fun s c => s.Proper c ∧ s.Clean c) m tlsf s) :
    s.WellFormed tlsf ∧ ∀ c, s.Proper c → s.Clean c → ∃ s', s.call c = some s' := by
  have hgood := TlsfState.Good.run htlsf h
  exact ⟨hgood.wellFormed,fun c hp hc => let ⟨s',hs',_⟩ := hgood.call hp hc; ⟨s',hs'⟩⟩

theorem tlsfRun_wellFormed_malloc : ∃ s1 s2, (tlsfStart (fun _ => 0) 8).call (.addPool (2 ^ 20) 256) = some s1 ∧
    s1.call (.malloc 190) = some s2 ∧ s2.WellFormed 8 := by
  have hproper : (tlsfStart (fun _ => 0) 8).Proper (.addPool (2 ^ 20) 256) :=
    ⟨by decide,by decide,by decide,by decide,by decide,nofun,.inr (by decide)⟩
  obtain ⟨s1,h1⟩ := (tlsfRun_wellFormed (by decide) (.start (s := tlsfStart (fun _ => 0) 8))).2 _ hproper trivial
  have hrun1 : TlsfRun (fun s c => s.Proper c ∧ s.Clean c) (fun _ => 0) 8 s1 := Reach.start.step ⟨hproper,trivial⟩ h1
  have hsize : s1.Proper (.malloc 190) := (by decide : 190 < 2 ^ 30)
  obtain ⟨s2,h2⟩ := (tlsfRun_wellFormed (by decide) hrun1).2 _ hsize trivial
  exact ⟨s1,s2,h1,h2,(tlsfRun_wellFormed (by decide) (hrun1.step ⟨hsize,trivial⟩ h2)).1⟩

theorem Seg.head_block {P : List Arena} {B : Layout} {F : ℕ → Option (Option Cls)} {r : Arena} (g : Seg tlsf P B (fun _ => False) t F)
    (hr : r ∈ P) : ∃ x, B r.start = some x ∧ x.kind ≠ .fence ∧ 32 ≤ x.size ∧ mbSize t.mem r.start = x.size := by
  obtain ⟨x,hx⟩ := g.heap.tiled.first hr
  have horder := g.heap.tiled.order r hr
  have hk : x.kind ≠ .fence := by
    intro hk
    obtain ⟨-,q,hq,h1,h2,-⟩ := g.heap.tiled.within _ x hx
    obtain ⟨h2,-⟩ := h2 hk
    obtain rfl := g.heap.tiled.meet hr hq (w := r.start) (by omega) (by omega) (by have := g.heap.tiled.order q hq; omega) (by omega)
    omega
  exact ⟨x,hx,hk,g.heap.size hx hk,g.heap.mbSize hx hk⟩

/-- A block of 200 bytes is cut to 16. -/
theorem tlsfRun_short : ¬∀ m tlsf s, 0 < tlsf → TlsfRun TlsfState.Proper m tlsf s → s.WellFormed tlsf := by
  intro h
  have g0 := tlsfInit_spec (fun _ => 0) (show 0 < 8 by decide)
  obtain ⟨t1,B1,F1,hadd,g1,-,-,hfill⟩ := tlsfAddPool_spec g0 (by decide) (by decide)
    (show Fresh 8 [] (2 ^ 20) 256 from fresh_empty (by decide))
  obtain ⟨c,hc⟩ := startClass g1.maps (show 8 ∣ 200 by decide) (by decide) (by decide)
  have hle : 200 ≤ (clsOf (256 / unitsize * unitsize - 48)).lower := by decide +kernel
  obtain ⟨a,n,t2,B2,F2,hfound,g2,hn,hgives⟩ := tlsfAgain_found g1 (by decide) (by decide) hc.enough ((hfill _).2 (.inr rfl)) (hc.le_iff.2 hle)
    none 0 0
  have hu : InUse B2 a n := (hgives.used a n).2 (.inr ⟨rfl,rfl⟩)
  have hmalloc : tlsfMalloc none 1 t1 190 = some (a + 8,t2) := (tlsfMalloc_eq (rfl : tlsfAmount 190 = some 200) hc none 1).trans hfound
  obtain ⟨t3,u,hcut,hu1,hu2,hres⟩ := tlsfShrinkBlk_spec (k := 16) g2 hu (by decide) (by decide) (by omega)
  have hsize : mbSize t2.mem a = n := g2.heap.inUse_size hu
  have hcuts : Cuts t2 a 16 := by
    rw [Cuts,hsize]
    exact ⟨(by omega : 32 ≤ n - 16),.inr (by omega : 128 ≤ n - 16)⟩
  have hrealloc : tlsfRealloc none 1 t2 (a + 8) 1 = some (a + 8,t3) := by
    have hneed : round2u 1 + unitsize = 16 := rfl
    rw [(tlsfRealloc_eq g2 hu (by decide) (by decide) hneed none 1).1 (by omega),hcut]
    rfl
  -- the block is the first one of the pool, and too short
  have hr : tlsfArena (2 ^ 20) 256 ∈ [tlsfArena (2 ^ 20) 256] := List.mem_singleton.2 rfl
  have ha : a = (tlsfArena (2 ^ 20) 256).start := by
    obtain ⟨x,hx,-,hx32,-⟩ := g2.head_block hr
    obtain ⟨y,hy,hk,rfl⟩ := hu
    obtain ⟨r,hr',h1,-,h2⟩ := g2.heap.tiled.arena hy
    obtain rfl := List.mem_singleton.1 hr'
    have h2 := h2 (by rw [hk]; exact nofun)
    have hlen : (tlsfArena (2 ^ 20) 256).stop = (tlsfArena (2 ^ 20) 256).start + 208 := by decide
    by_contra hne
    have := g2.heap.tiled.apart _ _ _ _ hx hy (by omega)
    omega
  have hrun1 : TlsfRun TlsfState.Proper (fun _ => 0) 8 ⟨t1,[(2 ^ 20,256)],fun _ => none⟩ := by
    refine Reach.start.step (i := .addPool (2 ^ 20) 256) ⟨by decide,by decide,by decide,by decide,by decide,nofun,.inr (by decide)⟩ ?_
    rw [TlsfState.call,tlsfStart,hadd]
    rfl
  have hrun2 : TlsfRun TlsfState.Proper (fun _ => 0) 8 ⟨t2,[(2 ^ 20,256)],update (fun _ => none) (a + 8) (some 190)⟩ := by
    refine hrun1.step (i := .malloc 190) (by decide : 190 < 2 ^ 30) ?_
    rw [TlsfState.call,hmalloc]
    rfl
  have hrun3 : TlsfRun TlsfState.Proper (fun _ => 0) 8
      ⟨t3,[(2 ^ 20,256)],update (update (update (fun _ => none) (a + 8) (some 190)) (a + 8) none) (a + 8) (some 1)⟩ := by
    refine hrun2.step (i := .realloc (a + 8) 1) ⟨.inr ?_,by decide⟩ ?_
    · dsimp only
      rw [update_self]
      exact nofun
    rw [TlsfState.call,hrealloc]
    rfl
  obtain ⟨B3,F3,g3⟩ := h _ 8 _ (by decide) hrun3
  obtain ⟨x,-,-,hx32,hx⟩ := Seg.head_block g3 hr
  have hshort : mbSize t3.mem (tlsfArena (2 ^ 20) 256).start = 16 := by rw [← ha,hres.own,hu1 hcuts]
  have : x.size = 16 := hx.symm.trans hshort
  omega

/-! ## Runs without reallocation -/

/-- A pointer that is returned is aligned, and its bytes lie in one pool, apart from those of the live
pointers, from the tags and from the links. -/
structure Placed (tlsf : ℕ) (s : TlsfState) (t : Tlsf) (p amt : ℕ) : Prop where
  aligned : 8 ∣ p
  inside : ∃ r ∈ s.arenas, r.start ≤ p ∧ p + amt ≤ r.stop
  apart : ∀ q n, s.live q = some n → p + amt ≤ q ∨ q + n ≤ p
  heap : ∃ B F, Seg tlsf s.arenas B (fun _ => False) t F ∧ (∀ c x, B c = some x → c + 8 ≤ p ∨ p + amt ≤ c) ∧
    ∀ e, Node (tlsfHeads tlsf) F e → e + 16 ≤ p ∨ p + amt ≤ e

/-- Each pool is one free block. -/
def TlsfState.Reclaimed (tlsf : ℕ) (s : TlsfState) : Prop := ∃ B F, Seg tlsf s.arenas B (fun _ => False) s.heap F ∧
  ∀ r ∈ s.arenas, B r.start = some ⟨r.stop - r.start,.free,true⟩

theorem TlsfState.Good.placed (h : s.Good tlsf) (hamt : amt < 2 ^ 30) (hcall : tlsfMalloc none 1 s.heap amt = some (p,t)) (hp : p ≠ 0) :
    Placed tlsf s t p amt := by
  obtain ⟨B,F,g,hserves⟩ := h
  rcases tlsfMalloc_none g (show amt < 2 ^ 30 + 64 by lia) 0 with hnone | ⟨a,k,t',B',F',hsome,g',hk,hgives⟩
  · cases hnone.symm.trans hcall
    exact absurd rfl hp
  · cases hsome.symm.trans hcall
    have hu : InUse B' a k := (hgives.used a k).2 (.inr ⟨rfl,rfl⟩)
    obtain ⟨x,ha,hx,rfl⟩ := id hu
    have hxf : x.kind ≠ .fence := by rw [hx]; exact nofun
    obtain ⟨h8,-,h32⟩ := g'.heap.sized a x ha
    have h32 := h32 hxf
    refine ⟨Nat.dvd_add h8 (by decide),?_,fun q n hq => ?_,B',F',g',fun c y hc => ?_,fun e he => ?_⟩
    · obtain ⟨r,hr,h1,-,h2⟩ := g'.heap.tiled.arena ha
      have := h2 hxf
      exact ⟨r,hr,by lia,by lia⟩
    · obtain ⟨c,u,rfl,hc,hle⟩ := hserves.block hq
      have hca : a ≠ c := fun he => hgives.new u (he ▸ hc)
      have := g'.heap.tiled.inUse_apart hu ((hgives.used c u).2 (.inl hc)) hca
      lia
    · have hy8 := g'.heap.span hc
      rcases Nat.lt_trichotomy a c with hac | rfl | hac
      · have := g'.heap.tiled.apart a x c y ha hc hac
        lia
      · exact .inl (Nat.le_refl _)
      · have := g'.heap.tiled.apart c y a x hc ha hac
        lia
    · have hout := fun w h1 h2 => g'.heap.held_outside hu (w := w) h1 h2 e he
      by_contra hno
      have h1 := hout e
      have h2 := hout (e + 8)
      lia

theorem TlsfState.Good.reclaimed (h : s.Good tlsf) (hlive : ∀ p, s.live p = none) : s.Reclaimed tlsf := by
  obtain ⟨B,F,g,hserves⟩ := h
  have hfree : ∀ a x, B a = some x → x.kind ≠ .fence → x.kind = .free := by
    intro a x ha hk
    cases hx : x.kind with
    | free => rfl
    | fence => exact absurd hx hk
    | used =>
      obtain ⟨n,hn,-⟩ := hserves.used a x.size ⟨x,ha,hx,rfl⟩
      rw [hlive] at hn
      cases hn
  refine ⟨B,F,g,fun r hr => ?_⟩
  obtain ⟨x,hx,hk,h32,-⟩ := g.head_block hr
  have hf := hfree _ x hx hk
  have horder := g.heap.tiled.order r hr
  obtain ⟨q,hq,h1,-,h2⟩ := g.heap.tiled.arena hx
  obtain rfl := g.heap.tiled.meet hr hq (w := r.start) (by omega) (by omega) (by have := g.heap.tiled.order q hq; omega)
    (by have := h2 hk; omega)
  have h2 := h2 hk
  obtain ⟨y,hy⟩ := g.heap.tiled.next hx hk
  -- what is behind a free block is not free
  have hyf : y.kind = .fence := by
    by_contra hyf
    have hyfree := hfree _ y hy hyf
    have hused := (g.heap.after _ x y hx hk not_false hy).1 (g.heap.alone _ y hy hyfree not_false)
    rw [hf] at hused
    cases hused
  have hstop : r.start + x.size = r.stop := by
    obtain ⟨-,q,hq,h3,h4,-⟩ := g.heap.tiled.within _ y hy
    have h4 := (h4 hyf).1
    obtain rfl := g.heap.tiled.meet hr hq (w := r.start + x.size) (by omega) (by omega) (by have := g.heap.tiled.order q hq; omega) (by omega)
    exact h4
  rw [hx]
  refine congrArg some (?_ : x = ⟨r.stop - r.start,.free,true⟩)
  rw [← hstop,Nat.add_sub_cancel_left,← hf,← g.heap.first r hr x hx]

theorem TlsfCall.Plain.clean {c : TlsfCall} (h : c.Plain) (s : TlsfState) : s.Clean c := by
  cases c with
  | realloc omem newamt => exact h.elim
  | addPool mem len => trivial
  | malloc amt => trivial
  | free mem => trivial
  | write w v => trivial

/-- In every run of `tlsf_malloc` and `tlsf_free` the pointers that come are the client's own, and when
all are freed each pool is one free block; the next such call has a result. -/
theorem tlsfRun_serves (htlsf : 0 < tlsf) (h : TlsfRun (fun s c => s.Proper c ∧ c.Plain) m tlsf s) :
    (∀ amt p t, amt < 2 ^ 30 → tlsfMalloc none 1 s.heap amt = some (p,t) → p ≠ 0 → Placed tlsf s t p amt) ∧
      ((∀ p, s.live p = none) → s.Reclaimed tlsf) ∧ ∀ c, s.Proper c → c.Plain → ∃ s', s.call c = some s' := by
  have hgood : s.Good tlsf := h.inv (I := TlsfState.Good tlsf) (fun t c u ht hp hu => by
    obtain ⟨u',hu',hgood⟩ := ht.call hp.1 (hp.2.clean t)
    obtain rfl := Option.some.inj (hu.symm.trans hu')
    exact hgood) (tlsfStart_good m htlsf)
  exact ⟨fun amt p t hamt hcall hp => hgood.placed hamt hcall hp,hgood.reclaimed,
    fun c hp hc => let ⟨s',hs',_⟩ := hgood.call hp (hc.clean s); ⟨s',hs'⟩⟩

theorem tlsfRun_serves_pool : ∃ s1, (tlsfStart (fun _ => 0) 8).call (.addPool (2 ^ 20) 256) = some s1 ∧
    ((∀ p, s1.live p = none) → s1.Reclaimed 8) := by
  have hproper : (tlsfStart (fun _ => 0) 8).Proper (.addPool (2 ^ 20) 256) :=
    ⟨by decide,by decide,by decide,by decide,by decide,nofun,.inr (by decide)⟩
  obtain ⟨s1,h1⟩ := (tlsfRun_serves (by decide) (.start (s := tlsfStart (fun _ => 0) 8))).2.2 _ hproper trivial
  exact ⟨s1,h1,(tlsfRun_serves (by decide) (Reach.start.step ⟨hproper,trivial⟩ h1)).2.1⟩

end Catlib.Alloc
