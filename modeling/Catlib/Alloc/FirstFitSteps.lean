import Catlib.Alloc.FirstFit
import Catlib.Alloc.Steps

/-! # The operations of the first-fit heap

`dm_current` stays on the ring as long as no block is joined or taken that it stands on.
-/
namespace Catlib.Alloc

open Function

variable {P : List Arena} {B B' : Layout} {H : ℕ → Prop} {m : Mem} {F F' : ℕ → Option (Option Unit)} {a b c n w v p amt : ℕ}
  {x y z : Blk} {head : Option Unit → ℕ} {dm dm' : Dynmem}

/-- All free blocks are on one ring. -/
abbrev one : ℕ → Unit := fun _ => ()

/-! ## Joining -/

theorem coalesceBack_spec (h : Heap one head P B (· = a) m F) (ha : B a = some x) (hk : x.kind = .free)
    (hf : m (a + x.size - 8) = x.size) : ∃ b n m' B' F', coalesceBack m a = (b,n,m') ∧ Heap one head P B' (· = b) m' F' ∧
      B' b = some ⟨n,.free,true⟩ ∧ m' (b + n - 8) = n ∧ b ≤ a ∧ a + x.size = b + n ∧ AgreeOff B B' b n ∧
      (∀ c u, B c = some u → b ≤ c → c < b + n → c = a ∨ u.kind = .free ∧ c + u.size = a) ∧
      (∀ w, Outside head F w → w ≠ b → w ≠ b + n - 8 → m' w = m w) ∧
      (x.prev = true → b = a) ∧ (x.prev = false → m' (entry b) = entry b ∧ m' (entry b + 8) = entry b) := by
  have hx : x.kind ≠ .fence := by rw [hk]; rintro ⟨⟩
  rw [coalesceBack,h.mbSize ha hx]
  cases hp : x.prev with
  | true =>
    have hne : m a &&& prevAllocBit ≠ 0 := fun h0 => by
      rw [(h.prev_zero ha).1 h0] at hp
      cases hp
    have hxe : x = ⟨x.size,.free,true⟩ := by rw [← hk,← hp]
    refine ⟨a,x.size,m,B,F,if_neg hne,h,ha.trans (congrArg some hxe),hf,Nat.le_refl a,rfl,.refl _ _ _,fun c u hc h1 h2 => .inl ?_,
      fun _ _ _ _ => rfl,fun _ => rfl,by rintro ⟨⟩⟩
    exact (h.tiled.unique hc ha (Nat.le_refl c) (Nat.lt_add_of_pos_right (h.tiled.pos hc)) h1 h2).1
  | false =>
    obtain ⟨b,y,hb,hky,hyp,hby,hfoot,hheap,hagree⟩ := h.joinBack ha hx hp
    have hpos := h.tiled.pos hb
    have hrem := h.rem (K := fun c => c = a ∨ c = b) hb hky (by lia) fun c => Iff.rfl
    have hF : F (entry b) = some (some ()) := (h.listed _ _).2 (.inr ⟨b,y,rfl,hb,hky,by lia,rfl⟩)
    have hunlink := (h.rings.unlink hF).2 (a - 8) (by rw [← hby]; exact h.outside_foot hb hky)
    have hflags : unlink m (entry b) b &&& ctlbmask = prevAllocBit := by
      rw [show unlink m (entry b) b = tag y from hrem.tags b y hb,tag_flags (h.eights hb),flags,if_pos hky,hyp]
      rfl
    rw [if_pos ((h.prev_zero ha).2 hp)]
    have hy32 := h.size hb (by rw [hky]; rintro ⟨⟩)
    refine ⟨b,y.size + x.size,_,_,_,?_,hheap,update_self ..,put_self _ _ _,by lia,by lia,hagree,fun c u hc h1 h2 => ?_,
      fun w hw h1 h2 => ?_,by rintro ⟨⟩,fun _ => ?_⟩
    case refine_3 =>
      rw [setFreeMb_frame h1 h2]
      exact (h.rings.unlink hF).2 w hw
    case refine_4 =>
      rw [setFreeMb_frame (by unfold entry unitsize; lia) (by unfold entry unitsize; lia),
        setFreeMb_frame (by unfold entry unitsize; lia) (by unfold entry unitsize; lia),unlink,put_ne (by lia),put_self,put_self]
      exact ⟨rfl,rfl⟩
    case refine_2 =>
      have hpc := h.tiled.pos hc
      by_cases hca : c < a
      · obtain ⟨rfl,rfl⟩ := h.tiled.unique hc hb (Nat.le_refl c) (by lia) h1 (by lia)
        exact .inr ⟨hky,hby⟩
      · exact .inl (h.tiled.unique hc ha (Nat.le_refl c) (by lia) (by lia) (by lia)).1
    have hab : a - m (a - unitsize) = b := by
      rw [show a - unitsize = a - 8 from rfl,hfoot]
      lia
    dsimp only
    rw [hab,show a - unitsize = a - 8 from rfl,hunlink,hfoot,hflags,Nat.add_comm x.size]

theorem coalesceFront_spec (h : Heap one head P B (· = a) m F) (ha : B a = some ⟨n,.free,true⟩) (hf : m (a + n - 8) = n) :
    ∃ n' B' F', Heap one head P B' (· = a) (coalesceFront a n m) F' ∧ Ready B' (coalesceFront a n m) a n' ∧ n ≤ n' ∧
      AgreeOff B B' a n' ∧ (∀ c u, B c = some u → a + n ≤ c → c < a + n' → c = a + n ∧ u.kind = .free) ∧
      ∀ w, Outside head F w → w ≠ a → w ≠ a + n' - 8 → w ≠ a + n' → coalesceFront a n m w = m w := by
  obtain ⟨y,hy⟩ := h.tiled.next ha nofun
  have hy : B (a + n) = some y := hy
  rw [coalesceFront]
  by_cases hk : y.kind = .free
  · have hyf : y.kind ≠ .fence := by rw [hk]; exact nofun
    have hpos := h.tiled.pos ha
    have hpos : 0 < n := hpos
    obtain ⟨hheap,hready,hagree⟩ := h.joinFront ha nofun rfl hy hk
    have hrem := h.rem (K := fun c => c = a ∨ c = a + n) hy hk (by omega) fun c => Iff.rfl
    have hsize : mbSize (unlink m (entry (a + n))) (a + n) = y.size := hrem.mbSize hy hyf
    have hflags : unlink m (entry (a + n)) a &&& ctlbmask = prevAllocBit := by
      rw [show unlink m (entry (a + n)) a = tag ⟨n,.free,true⟩ from hrem.tags a _ ha,tag_flags (h.eights ha)]
      rfl
    rw [if_pos ((h.alloc_zero hy).2 hk)]
    dsimp only
    rw [hsize,hflags]
    refine ⟨n + y.size,_,_,hheap,hready,Nat.le_add_right _ _,hagree,fun c u hc h1 h2 => ?_,fun w hw h1 h2 _ => ?_⟩
    · obtain ⟨rfl,rfl⟩ := h.tiled.unique hc hy (Nat.le_refl c) (Nat.lt_add_of_pos_right (h.tiled.pos hc)) h1 (by omega)
      exact ⟨rfl,hk⟩
    · rw [setFreeMb_frame h1 h2]
      exact (h.rings.unlink ((h.listed _ _).2 (.inr ⟨a + n,y,rfl,hy,hk,by omega,rfl⟩))).2 w hw
  · obtain ⟨hheap,hready⟩ := h.keepFront ha hf hy hk
    rw [if_neg fun h0 => hk ((h.alloc_zero hy).1 h0)]
    exact ⟨n,_,_,hheap,hready,Nat.le_refl n,(AgreeOff.refl B a n).mark hy false,fun c u _ h1 h2 => by omega,fun w _ _ _ h3 => put_ne h3⟩

theorem coalesce_spec (h : Heap one head P B (· = a) m F) (ha : B a = some x) (hk : x.kind = .free)
    (hf : m (a + x.size - 8) = x.size) : ∃ b n m' B' F', coalesce m a = (b,m') ∧ Heap one head P B' (· = b) m' F' ∧
      Ready B' m' b n ∧ b ≤ a ∧ a + x.size ≤ b + n ∧ AgreeOff B B' b n ∧
      (∀ c u, B c = some u → b ≤ c → c < b + n → c = a ∨ u.kind = .free ∧ (c + u.size = a ∨ c = a + x.size)) ∧
      (∀ c s w, InUse B c s → c < w → w < c + s → m' w = m w) ∧
      (x.prev = true → b = a) ∧ (x.prev = false → m' (entry b) = entry b ∧ m' (entry b + 8) = entry b) := by
  obtain ⟨b,n,m1,B1,F1,he,h1,hb,hf1,hle,hend,hagree,hin,hframe,hstay,hself⟩ := coalesceBack_spec h ha hk hf
  obtain ⟨n',B2,F2,h2,hready,hn,hagree2,hin2,hframe2⟩ := coalesceFront_spec h1 hb hf1
  have hall : ∀ c u, B c = some u → b ≤ c → c < b + n' → c = a ∨ u.kind = .free ∧ (c + u.size = a ∨ c = a + x.size) := by
    intro c u hc hbc hcn
    by_cases hlt : c < b + n
    · exact (hin c u hc hbc hlt).imp id fun h => ⟨h.1,.inl h.2⟩
    · obtain ⟨u',hu',-,hku⟩ := hagree.after (by lia) hc
      obtain ⟨hce,hfree⟩ := hin2 c u' hu' (by lia) hcn
      exact .inr ⟨hku.symm.trans hfree,.inr (by lia)⟩
  have h32 : 32 ≤ n := h1.size hb nofun
  refine ⟨b,n',_,B2,F2,?_,h2,hready,hle,by lia,(hagree.mono (Nat.le_refl b) (by lia)).trans hagree2,hall,
    fun c s w hu hcw hws => ?_,hstay,fun hp => ?_⟩
  · rw [coalesce,he]
  · -- the block in use lies beside the joined one
    obtain ⟨u,hc,hku,rfl⟩ := id hu
    have hoff : c < b ∨ b + n' ≤ c := by
      by_contra hno
      rcases hall c u hc (by lia) (by lia) with rfl | ⟨hkf,-⟩
      · cases ha.symm.trans hc
        rw [hk] at hku
        cases hku
      · rw [hku] at hkf
        cases hkf
    obtain ⟨u1,hu1,hs1,hk1⟩ := hagree.after (c := c) (by lia) hc
    obtain ⟨u2,hu2,hs2,-⟩ := ((hagree.mono (Nat.le_refl b) (by lia)).trans hagree2).after hoff hc
    have hbeside : c + u.size ≤ b ∨ b + n' ≤ c := by
      rcases hoff with hoff | hoff
      · have := h2.tiled.apart c u2 b _ hu2 hready.block hoff
        lia
      · exact .inr hoff
    have hend' : b + n' ≤ c → b + n' ≠ w := by lia
    have hout := h.held_outside hu (Nat.le_of_lt hcw) hws
    have hout1 := h1.held_outside (c := c) ⟨u1,hu1,hk1.trans hku,rfl⟩ (Nat.le_of_lt hcw) (by lia)
    rw [hframe2 w hout1 (by lia) (by lia) (by lia),hframe w hout (by lia) (by lia)]
  · have hout := fun w (h3 : b ≤ w) (h4 : w < b + n) => h1.outside hb h3 h4 fun _ hn => absurd rfl hn
    have hent : entry b = b + 8 := rfl
    rw [hframe2 _ (hout _ (by lia) (by lia)) (by lia) (by lia) (by lia),
      hframe2 _ (hout _ (by lia) (by lia)) (by lia) (by lia) (by lia)]
    exact hself hp

/-! ## Freeing -/

/-- The heads of the two rings. -/
def Dynmem.heads (dm : Dynmem) : Option Unit → ℕ
  | none => dm.pools
  | some () => dm.blocks

/-- The heap between two calls. -/
structure FirstFit (P : List Arena) (B : Layout) (F : ℕ → Option (Option Unit)) (dm : Dynmem) : Prop where
  heap : Heap one dm.heads P B (fun _ => False) dm.mem F
  cur : OnRing dm.heads F (some ()) dm.current
  init : dm.init = true

theorem onRing_of_agree {b n : ℕ} {m m' : Mem} (h : Heap one head P B H m F) (h' : Heap one head P B' (· = b) m' F')
    (hagree : AgreeOff B B' b n) (hn : 0 < n) (hp : OnRing head F (some ()) p)
    (hout : ∀ c u, B c = some u → u.kind = .free → b ≤ c → c < b + n → p ≠ entry c) : OnRing head F' (some ()) p := by
  refine hp.imp id fun hF => ?_
  rcases (h.listed p _).1 hF with ⟨he,-⟩ | ⟨c,u,rfl,hc,hk,-,-⟩
  · cases he
  · have hoff : c < b ∨ b + n ≤ c := by
      by_contra hin
      exact hout c u hc hk (by omega) (by omega) rfl
    obtain ⟨u',hu',-,hku⟩ := hagree.after hoff hc
    exact (h'.listed _ _).2 (.inr ⟨c,u',rfl,hu',hku.trans hk,by omega,rfl⟩)

/-- A hole that is marked free and joined with its free neighbours. -/
structure Joins (head : Option Unit → ℕ) (P : List Arena) (B : Layout) (F : ℕ → Option (Option Unit)) (m : Mem) (a : ℕ) (x : Blk) (b n : ℕ)
    (m' : Mem) (B' : Layout) (F' : ℕ → Option (Option Unit)) : Prop where
  heap : Heap one head P B' (· = b) m' F'
  ready : Ready B' m' b n
  used : ∀ c s, InUse B' c s ↔ InUse B c s ∧ c ≠ a
  held : ∀ c s w, InUse B c s → c ≠ a → c < w → w < c + s → m' w = m w
  ring : ∀ p, OnRing head F (some ()) p → ¬(p ≥ b ∧ p < b + n) → OnRing head F' (some ()) p
  near : ∀ p, OnRing head F (some ()) p → p ≥ b → p < b + n → ∃ c u, B c = some u ∧ u.kind = .free ∧ p = entry c ∧
    (c + u.size = a ∨ c = a + x.size)
  free : ∀ c u, B' c = some u → u.kind = .free → c = b ∨ c ≠ a ∧ ∃ u', B c = some u' ∧ u'.kind = .free ∧ u'.size = u.size
  reach : a + x.size ≤ b + n
  first : x.prev = true → b = a
  stale : x.prev = false → m' (entry b) = entry b ∧ m' (entry b + 8) = entry b

theorem coalesce_joins (h : Heap one head P B (· = a) m F) (ha : B a = some x) (hx : x.kind ≠ .fence) :
    ∃ b n m' B' F', coalesce (markFree m a) a = (b,m') ∧ Joins head P B F m a x b n m' B' F' := by
  obtain ⟨hset,hfoot⟩ := h.setFree (z := ⟨x.size,.free,x.prev⟩) ha rfl hx (by rintro ⟨⟩) rfl rfl
  have hmark : markFree m a = setFreeMb m a x.size (flags ⟨x.size,.free,x.prev⟩) := by
    rw [markFree,h.mbSize ha hx,h.tags a x ha,tag_prev (h.eights ha),flags,if_pos rfl,Nat.zero_add]
  have hself : update B a (some (⟨x.size,.free,x.prev⟩ : Blk)) a = some ⟨x.size,.free,x.prev⟩ := update_self ..
  have hoff : ∀ c u, c ≠ a → (update B a (some (⟨x.size,.free,x.prev⟩ : Blk)) c = some u ↔ B c = some u) := fun c u hca => by
    rw [update_of_ne hca]
  obtain ⟨b,n,m',B1,F1,he,h1,hready,hle,hend,hagree,hin,hheld,hfirst,hstale⟩ := coalesce_spec hset hself rfl hfoot
  have hposn : 32 ≤ n := h1.size hready.block (by rintro ⟨⟩)
  have hend : a + x.size ≤ b + n := hend
  have hx32 := h.size ha hx
  have hposa := h.tiled.pos ha
  have hoff' : ∀ {c}, c < b ∨ b + n ≤ c → c ≠ a := fun hc => by lia
  refine ⟨b,n,m',B1,F1,by rw [hmark]; exact he,h1,hready,fun c s => ⟨?_,?_⟩,fun c s w hu hca hcw hws => ?_,fun p hp hno => ?_,
    fun p hp hbp hpn => ?_,fun c u hc hk => ?_,hend,hfirst,hstale⟩
  case refine_6 =>
    refine or_iff_not_imp_left.2 fun hcb => ?_
    have hoffc : c < b ∨ b + n ≤ c := by
      by_contra hin'
      exact hcb (h1.tiled.unique hc hready.block (Nat.le_refl c) (Nat.lt_add_of_pos_right (h1.tiled.pos hc)) (by lia)
        (by dsimp only; lia)).1
    obtain ⟨u',hu',hs,hk'⟩ := hagree.before hoffc hc
    exact ⟨hoff' hoffc,u',(hoff c u' (hoff' hoffc)).1 hu',hk'.trans hk,hs⟩
  · rintro ⟨u,hu,hk,rfl⟩
    have hc : c < b ∨ b + n ≤ c := by
      by_contra hin'
      obtain ⟨rfl,rfl⟩ := h1.tiled.unique hu hready.block (Nat.le_refl c) (Nat.lt_add_of_pos_right (h1.tiled.pos hu)) (by lia)
        (by dsimp only; lia)
      cases hk
    obtain ⟨u',hu',hs,hk'⟩ := hagree.before hc hu
    exact ⟨⟨u',(hoff c u' (hoff' hc)).1 hu',hk'.trans hk,hs⟩,hoff' hc⟩
  · rintro ⟨⟨u,hu,hk,rfl⟩,hca⟩
    have hu1 := (hoff c u hca).2 hu
    have hc : c < b ∨ b + n ≤ c := by
      by_contra hin'
      rcases hin c u hu1 (by lia) (by lia) with hce | ⟨hkf,-⟩
      · exact hca hce
      · rw [hk] at hkf
        cases hkf
    obtain ⟨u',hu',hs,hk'⟩ := hagree.after hc hu1
    exact ⟨u',hu',hk'.trans hk,hs⟩
  · have hne := fun e => hu.word_ne h.tiled ha hca (Nat.le_of_lt hcw) hws (v := e)
    rw [hheld c s w (inUse_update.2 (.inr ⟨hca,hu⟩)) hcw hws,setFreeMb_frame (hne a (Nat.le_refl a) (by lia))
      (hne _ (by dsimp only; lia) (by dsimp only; lia))]
  · refine onRing_of_agree hset h1 hagree (by lia) hp fun c u hc hk hbc hcn he => hno ?_
    -- its free neighbours are joined as a whole
    have hu32 := hset.size hc (by rw [hk]; rintro ⟨⟩)
    obtain ⟨y,hy,-⟩ := hready.next
    obtain ⟨v,hv,-,-⟩ := hagree.before (.inr (Nat.le_refl _)) hy
    have := hset.tiled.apart c u _ v hc hv hcn
    rw [he,show entry c = c + 8 from rfl]
    lia
  · rcases hp with rfl | hp
    · obtain ⟨q,hq,h2,-,h3⟩ := h1.tiled.arena hready.block
      have h3 : b + n ≤ q.stop := h3 (by rintro ⟨⟩)
      have ho := h1.tiled.order q hq
      rcases h1.heads (some ()) q hq with h | h <;> lia
    · rcases (hset.listed _ _).1 hp with ⟨hno,-⟩ | ⟨c,u,rfl,hc,hk,hca,-⟩
      · cases hno
      · have hsize := hset.size hc (by rw [hk]; rintro ⟨⟩)
        have hbc : b ≤ c := by
          by_contra hcb
          obtain ⟨u',hu',hsu,-⟩ := hagree.after (by lia) hc
          have := (h1.tiled.unique hu' hready.block (w := b) (by lia) (by lia) (Nat.le_refl b) (by dsimp only; lia)).1
          lia
        rcases hin c u hc hbc (by lia) with hca' | ⟨-,hnear⟩
        · exact absurd hca' hca
        · exact ⟨c,u,(hoff c u hca).1 hc,hk,rfl,hnear⟩

theorem dynmemFree_eq {d : Dynmem} {b n : ℕ} {m' : Mem} (hinit : d.init = true) (he : coalesce (markFree d.mem a) a = (b,m'))
    (hj : Joins d.heads P B F d.mem a x b n m' B' F') (hcur : ¬(d.current ≥ b ∧ d.current < b + n)) :
    dynmemFree d (a + 8) = { d with mem := link m' (m' (d.current + 8)) (entry b) } := by
  have hno : ¬(d.init = false ∨ a + 8 = 0) := by
    rw [hinit,not_or]
    exact ⟨nofun,Nat.succ_ne_zero _⟩
  rw [dynmemFree,if_neg hno]
  dsimp only
  rw [show a + 8 - unitsize = a from rfl,he]
  dsimp only
  rw [hj.heap.mbSize hj.ready.block nofun,if_neg hcur]

theorem Joins.put {d : Dynmem} {b n : ℕ} {m' : Mem} (hj : Joins d.heads P B F d.mem a x b n m' B' F')
    (hcur : OnRing d.heads F (some ()) d.current) (hinit : d.init = true) (he : coalesce (markFree d.mem a) a = (b,m'))
    (hstay : ¬(d.current ≥ b ∧ d.current < b + n)) :
    ∃ F', FirstFit P B' F' (dynmemFree d (a + 8)) ∧ (dynmemFree d (a + 8)).pools = d.pools ∧
      (dynmemFree d (a + 8)).blocks = d.blocks ∧
      (∀ c s w, InUse B c s → c ≠ a → c < w → w < c + s → (dynmemFree d (a + 8)).mem w = d.mem w) ∧
      (dynmemFree d (a + 8)).mem (entry b) = d.current := by
  have hcur1 := hj.ring _ hcur hstay
  have hpos := hj.heap.rings.prev hcur1
  obtain ⟨y,hy,hyp⟩ := hj.ready.next
  have hins := hj.heap.ins (K := fun _ => False) hj.ready.block rfl rfl rfl hj.ready.foot hy hyp hpos.1
    fun c => ⟨False.elim,fun hc => hc.2 hc.1⟩
  have hapart := hj.heap.node_apart hj.ready.block nofun (fun _ => rfl) hpos.1.node
  rw [dynmemFree_eq hinit he hj hstay]
  refine ⟨_,⟨hins,hcur1.imp id fun hF => ?_,hinit⟩,rfl,rfl,fun c s w hu hca hcw hws => ?_,?_⟩
  · by_cases hcb : d.current = b + 8
    · rw [hcb,update_self]
    · rw [update_of_ne hcb]
      exact hF
  · have hu1 := (hj.used c s).2 ⟨hu,hca⟩
    have hout := hj.heap.held_outside hu1 (Nat.le_of_lt hcw) hws
    have h32 : 32 ≤ n := hj.heap.size hj.ready.block nofun
    have hcb : c ≠ b := hu1.apart hj.heap.tiled hj.ready.block (fun _ => nofun) (Nat.le_refl b) (by dsimp only; omega)
    have hne := fun e => hu1.word_ne hj.heap.tiled hj.ready.block hcb (Nat.le_of_lt hcw) hws (v := e)
    dsimp only at hne ⊢
    rw [link_frame (hne _ (by unfold entry; omega) (by unfold entry unitsize; omega))
      (hne _ (by unfold entry; omega) (by unfold entry unitsize; omega)) (hout _ hpos.1.node).1
      (hout _ (hj.heap.rings.next hpos.1).1.node).2,hj.held c s w hu hca hcw hws]
  · have hapart' := (hj.heap.node_apart hj.ready.block nofun (fun _ => rfl) hcur1.node).2
    obtain ⟨hne,hapart⟩ := hapart
    unfold Apart at hapart hapart'
    dsimp only
    rw [link,hpos.2,put_ne (by unfold entry unitsize; omega),put_ne (by unfold entry unitsize; omega),put_ne (by unfold entry; omega),
      put_self]

theorem Joins.stray {d : Dynmem} {b n : ℕ} {m' : Mem} (hj : Joins d.heads P B F d.mem a x b n m' B' F') (hinit : d.init = true)
    (he : coalesce (markFree d.mem a) a = (b,m')) (hcur : d.current ≥ b ∧ d.current < b + n) (hp : x.prev = false) :
    (dynmemFree d (a + 8)).mem = m' := by
  have hno : ¬(d.init = false ∨ a + 8 = 0) := by
    rw [hinit,not_or]
    exact ⟨nofun,Nat.succ_ne_zero _⟩
  obtain ⟨hself,hself'⟩ := hj.stale hp
  rw [dynmemFree,if_neg hno]
  dsimp only
  rw [show a + 8 - unitsize = a from rfl,he]
  dsimp only
  rw [hj.heap.mbSize hj.ready.block nofun,if_pos hcur,hself']
  exact link_self hself hself'

theorem freeHole {d : Dynmem} (h : Heap one d.heads P B (· = a) d.mem F) (hcur : OnRing d.heads F (some ()) d.current) (hinit : d.init = true)
    (ha : B a = some x) (hx : x.kind ≠ .fence)
    (hspare : ∀ c u, B c = some u → u.kind = .free → c + u.size = a ∨ c = a + x.size → d.current ≠ entry c) :
    ∃ B' F', FirstFit P B' F' (dynmemFree d (a + 8)) ∧ (dynmemFree d (a + 8)).pools = d.pools ∧
      (dynmemFree d (a + 8)).blocks = d.blocks ∧ (∀ c n, InUse B' c n ↔ InUse B c n ∧ c ≠ a) ∧
      (∀ c s w, InUse B c s → c ≠ a → c < w → w < c + s → (dynmemFree d (a + 8)).mem w = d.mem w) ∧
      ∀ c u, B' c = some u → u.kind = .free → (c ≠ a ∧ ∃ u', B c = some u' ∧ u'.kind = .free ∧ u'.size = u.size) ∨
        (dynmemFree d (a + 8)).mem (entry c) = d.current ∧ (x.prev = true → c = a ∧ x.size ≤ u.size) := by
  obtain ⟨b,n,m',B1,F1,he,hj⟩ := coalesce_joins h ha hx
  have hstay : ¬(d.current ≥ b ∧ d.current < b + n) := by
    rintro ⟨hge,hlt⟩
    obtain ⟨c,u,hc,hk,hce,hnear⟩ := hj.near _ hcur hge hlt
    exact hspare c u hc hk hnear hce
  obtain ⟨F2,g,hpools,hblocks,hheld,hlink⟩ := hj.put hcur hinit he hstay
  refine ⟨B1,F2,g,hpools,hblocks,hj.used,hheld,fun c u hc hk => (hj.free c u hc hk).symm.imp id ?_⟩
  rintro rfl
  cases hj.ready.block.symm.trans hc
  exact ⟨hlink,fun hp => ⟨hj.first hp,by have := hj.reach; have := hj.first hp; dsimp only; omega⟩⟩

/-! ## Adding a pool -/

/-- The arena that `dynmem_add_pool` makes of a region. -/
def poolArena (mem len : ℕ) : Arena := ⟨mem,mem + poolSize,mem + len / unitsize * unitsize - unitsize⟩

theorem addPool_spec (g : FirstFit P B F dm) {mem len : ℕ} (hlen : poolSize + unitsize + minsz ≤ len) (h8 : 8 ∣ mem) (h0 : 0 < mem)
    (hfit : mem + len ≤ 2 ^ 64) (hfar : ∀ q ∈ P, mem + len ≤ q.base ∨ q.stop + 8 ≤ mem)
    (hheads : ∀ j, dm.heads j + 16 ≤ mem ∨ mem + len ≤ dm.heads j) :
    ∃ dm' B' F', dynmemAddPool dm mem len = some dm' ∧ FirstFit (poolArena mem len :: P) B' F' dm' ∧ dm'.pools = dm.pools ∧
      dm'.blocks = dm.blocks ∧ (∀ c n, InUse B' c n ↔ InUse B c n) ∧
      (∀ c s w, InUse B c s → c < w → w < c + s → dm'.mem w = dm.mem w) ∧
      ∀ c u, B' c = some u → u.kind = .free → (∃ u', B c = some u' ∧ u'.kind = .free ∧ u'.size = u.size) ∨
        c = mem + poolSize ∧ dm'.mem (entry c) = dm.current ∧ len < u.size + 56 := by
  have hlen : 80 ≤ len := hlen
  obtain ⟨ulen,hulen,hu8,hule,hu80⟩ : ∃ ulen, len / unitsize * unitsize = ulen ∧ 8 ∣ ulen ∧ ulen ≤ len ∧ 80 ≤ ulen :=
    ⟨_,rfl,Nat.dvd_mul_left _ _,Nat.div_mul_le_self _ _,by unfold unitsize; lia⟩
  have hq : poolArena mem len = ⟨mem,mem + 40,mem + ulen - 8⟩ := by
    rw [poolArena,hulen]
    rfl
  have hx8 : 8 ∣ ulen - 48 := (Nat.dvd_sub hu8 (by decide))
  obtain ⟨m3,hm3⟩ : ∃ m3, put (put (dynmemInitPool dm.mem dm.pools mem len (ulen - 48) (mem + 40)) (mem + 40 + (ulen - 48)) allocBit)
      (mem + 40) ((ulen - 48) ||| prevAllocBit) = m3 := ⟨_,rfl⟩
  have hadd : dynmemAddPool dm mem len = some (dynmemFree { dm with mem := m3 } (mem + 40 + 8)) := by
    have hno : ¬(ulen < minasz ∨ mem % unitsize ≠ 0) := by
      have : mem % 8 = 0 := Nat.mod_eq_zero_of_dvd h8
      unfold minasz unitsize
      lia
    rw [dynmemAddPool,hulen,← hm3]
    exact if_neg hno
  have hpos : OnRing dm.heads F none (dm.mem (dm.pools + 8)) := (g.heap.rings.prev (p := dm.pools) (i := none) (.inl rfl)).1
  have hstop : mem + 40 + (ulen - 48) = mem + ulen - 8 := by lia
  have hext := g.heap.extend (q := ⟨mem,mem + 40,mem + ulen - 8⟩) (x := ⟨ulen - 48,.free,true⟩) (y := ⟨8,.fence,false⟩) (e := m3)
    (K := (· = mem + 40)) hpos (fun r hr => by have := hfar r hr; dsimp only; lia)
    (fun j => by have := hheads j; dsimp only; lia) h0 (Nat.add_le_add_left (by decide) mem) (Nat.dvd_add h8 (by decide))
    (by dsimp only; lia) hstop nofun rfl (by dsimp only; lia) hx8 rfl rfl (fun w hw => ?_) ?_ ?_ fun b => (false_or _).symm ▸ Iff.rfl
  · obtain ⟨B1,hB1⟩ : ∃ B1, update (update B (mem + ulen - 8) (some (⟨8,.fence,false⟩ : Blk))) (mem + 40)
        (some ⟨ulen - 48,.free,true⟩) = B1 := ⟨_,rfl⟩
    have hold : ∀ c u, B1 c = some u → c = mem + 40 ∧ u = ⟨ulen - 48,.free,true⟩ ∨ c = mem + ulen - 8 ∧ u = ⟨8,.fence,false⟩ ∨
        B c = some u := by
      intro c u hc
      rw [← hB1] at hc
      rcases update_some.1 hc with h | ⟨-,hc⟩
      · exact .inl h
      · rcases update_some.1 hc with h | ⟨-,hc⟩
        · exact .inr (.inl h)
        · exact .inr (.inr hc)
    -- the old blocks are in other arenas
    have hfarB : ∀ c u, B c = some u → c + u.size ≤ mem ∨ mem + len ≤ c := by
      intro c u hc
      obtain ⟨r,hr,h1,h2,-⟩ := g.heap.tiled.arena hc
      have := g.heap.tiled.order r hr
      have := hfar r hr
      lia
    have hself : B1 (mem + 40) = some ⟨ulen - 48,.free,true⟩ := by
      rw [← hB1,update_self]
    have hcur : dm.current ≠ mem := by
      intro he
      rcases g.heap.node_in (g.cur.node) with ⟨j,hj⟩ | ⟨r,hr,h1,h2⟩
      · have := hheads j
        lia
      · have := hfar r hr
        lia
    have hspare : ∀ c u, B1 c = some u → u.kind = .free → c + u.size = mem + 40 ∨ c = mem + 40 + (ulen - 48) → dm.current ≠ entry c := by
      intro c u hc hk hnear
      rcases hold c u hc with ⟨rfl,rfl⟩ | ⟨rfl,rfl⟩ | hc
      · dsimp only at hnear
        lia
      · cases hk
      · have := hfarB c u hc
        have := g.heap.tiled.pos hc
        lia
    have hext : Heap one dm.heads (poolArena mem len :: P) B1 (· = mem + 40) m3 (update F mem (some none)) := by
      rw [hq,← hB1]
      exact hext
    obtain ⟨B2,F2,g2,hpools,hblocks,huse,hheld,hfree⟩ := freeHole (d := { dm with mem := m3 }) hext
      (g.cur.imp id fun hF => by rw [update_of_ne hcur]; exact hF) g.init hself nofun hspare
    have hold' : ∀ c n, InUse B c n → InUse B1 c n ∧ c ≠ mem + 40 := by
      rintro c n ⟨u,hu,hk,hs⟩
      have hfarc := hfarB c u hu
      have hposc := g.heap.tiled.pos hu
      refine ⟨⟨u,?_,hk,hs⟩,by lia⟩
      rw [← hB1,update_of_ne (by lia),update_of_ne (by lia)]
      exact hu
    refine ⟨_,B2,F2,hadd,g2,hpools,hblocks,fun c n => (huse c n).trans ⟨?_,hold' c n⟩,fun c s w hu hcw hws => ?_,fun c u hc hk => ?_⟩
    case refine_3 =>
      refine (hfree c u hc hk).imp ?_ fun ⟨hlink,hsize⟩ => ⟨(hsize rfl).1,hlink,?_⟩
      · rintro ⟨hca,u',hu',hk',hs⟩
        rcases hold c u' hu' with ⟨hc,-⟩ | ⟨-,rfl⟩ | hu'
        · exact absurd hc hca
        · cases hk'
        · exact ⟨u',hu',hk',hs⟩
      · have := (hsize rfl).2
        have : len < len / unitsize * unitsize + 8 := by unfold unitsize; lia
        dsimp only at *
        lia
    · rintro ⟨⟨u,hu,hk,hs⟩,-⟩
      rcases hold c u hu with ⟨-,rfl⟩ | ⟨-,rfl⟩ | hu
      · cases hk
      · cases hk
      · exact ⟨u,hu,hk,hs⟩
    · rw [hheld c s w (hold' c s hu).1 (hold' c s hu).2 hcw hws]
      have hout := g.heap.held_outside hu (Nat.le_of_lt hcw) hws
      obtain ⟨u,hc,-,rfl⟩ := hu
      have hfarc := hfarB c u hc
      dsimp only
      rw [← hm3,put_ne (by lia),put_ne (by lia),dynmemInitPool,put_ne (by lia),put_ne (by lia),put_ne (by lia),
        link_frame (by lia) (by lia) (hout _ hpos.node).1 (hout _ (g.heap.rings.next hpos).1.node).2]
  · dsimp only at hw
    rw [← hm3,put_ne (by lia),put_ne (by lia),dynmemInitPool,put_ne (by lia),put_ne (by lia),put_ne (by lia)]
  · rw [← hm3,put_self]
    exact or_flags (x := ⟨ulen - 48,.free,true⟩) hx8 nofun
  · dsimp only
    rw [← hm3,put_ne (by lia),hstop,put_self]
    rfl

/-! ## Cutting a block on the ring -/

theorem unlink_splitBlock {k z f : ℕ} (hz : m (a + 8) = z) (hp : m (a + 16) = p) (hpa : p + 16 ≤ a ∨ a + n ≤ p)
    (hza : z + 16 ≤ a ∨ a + n ≤ z) (hpz : Apart p z) (hk : 32 ≤ k) (hkn : k + 32 ≤ n) :
    setFreeMb (link (setFreeMb m (a + k) (n - k) f) (entry a) (entry (a + k))) a k f (entry a) = entry (a + k) ∧
      unlink (setFreeMb (link (setFreeMb m (a + k) (n - k) f) (entry a) (entry (a + k))) a k f) (entry a) =
        link (setFreeMb (setFreeMb (unlink m (entry a)) (a + k) (n - k) f) a k f) p (entry (a + k)) := by
  unfold setFreeMb entry unitsize
  have hend : a + k + (n - k) = a + n := by lia
  rw [hend]
  obtain ⟨m2,hm2⟩ : ∃ m2, put (put m (a + k) (n - k ||| f)) (a + n - 8) (n - k) = m2 := ⟨_,rfl⟩
  have hz2 : m2 (a + 8) = z := by rw [← hm2,put_ne (by lia),put_ne (by lia),hz]
  have hp2 : m2 (a + 8 + 8) = p := by rw [← hm2,put_ne (by lia),put_ne (by lia)]; exact hp
  have hun : unlink m2 (a + 8) = put (put (unlink m (a + 8)) (a + k) (n - k ||| f)) (a + n - 8) (n - k) := by
    have hz' : m (a + 8) = z := hz
    have hp' : m (a + 8 + 8) = p := hp
    rw [← hm2,unlink_put (by lia) (by lia) (by rw [put_ne (by lia),hp']; lia) (by rw [put_ne (by lia),hz']; lia),
      unlink_put (by lia) (by lia) (by rw [hp']; lia) (by rw [hz']; lia)]
  have hlink1 : link m2 (a + 8) (a + k + 8) (a + 8) = a + k + 8 := by
    rw [link,hz2,put_ne (by lia),put_self]
  have hlink2 : link m2 (a + 8) (a + k + 8) (a + 8 + 8) = p := by
    rw [link,hz2,put_ne (by lia),put_ne (by lia),put_ne (by lia),put_ne (by lia),hp2]
  have hun1 : unlink m2 (a + 8) p = z := by
    unfold Apart at hpz
    rw [unlink,hz2,hp2,put_ne (by lia),put_ne (by lia),put_ne (by lia),put_self]
  rw [hm2]
  constructor
  · rw [put_ne (by lia),put_ne (by lia),hlink1]
  · rw [unlink_put (by lia) (by lia) (by rw [put_ne (by lia),hlink2]; lia) (by rw [put_ne (by lia),hlink1]; lia),
      unlink_put (by lia) (by lia) (by rw [hlink2]; lia) (by rw [hlink1]; lia),
      unlink_link hz2 hp2 (.inr (by lia)) (by unfold Apart; lia) (by unfold Apart; lia) (by unfold Apart; lia)
        (by unfold Apart; lia) hpz (by lia) (by lia) (by lia) (by lia) (by lia),
      ← link_put (by lia) (by lia) (by lia) (by rw [hun1]; lia),
      ← link_put (by lia) (by lia) (by lia) (by rw [put_ne (by lia),hun1]; lia),hun]

theorem splitRem_spec (h : Heap one head P B (fun _ => False) m F) (ha : B a = some x) (hk : x.kind = .free) {k : ℕ} (h8 : 8 ∣ k)
    (hk32 : 32 ≤ k) (hkx : k + 32 ≤ x.size) : ∃ ms, splitBlock m a k = some ms ∧ ms (entry a) = entry (a + k) ∧
      Heap one head P (update (update B (a + k) (some ⟨x.size - k,.free,true⟩)) a (some ⟨k,.free,true⟩)) (· = a)
        (unlink ms (entry a)) (update (update F (entry a) none) (entry (a + k)) (some (some ()))) ∧
      ∀ w, Outside head F w → ¬(a ≤ w ∧ w < a + x.size) → unlink ms (entry a) w = m w := by
  have hx : x.kind ≠ .fence := by rw [hk]; exact nofun
  have hprev := h.alone a x ha hk not_false
  have hxe : x = ⟨x.size,.free,true⟩ := by rw [← hk,← hprev]
  have hF : F (entry a) = some (some ()) := (h.listed _ _).2 (.inr ⟨a,x,rfl,ha,hk,not_false,rfl⟩)
  have hrem := h.rem (K := (· = a)) ha hk not_false fun c => (false_or _).symm ▸ Iff.rfl
  have hprv := h.rings.prev (.inr hF)
  have hnxt := h.rings.next (.inr hF)
  have hapart := fun n (hn : Node head (update F (entry a) none) n) => hrem.node_apart (n := n) ha hx (fun _ => rfl) hn
  have hkeep : ∀ q, q ≠ entry a → OnRing head F (some ()) q → OnRing head (update F (entry a) none) (some ()) q := by
    intro q hq hon
    exact hon.imp id fun hFq => by rw [update_of_ne hq]; exact hFq
  -- neighbours on the ring are outside the block
  have hout : ∀ q, q ≠ entry a → OnRing head F (some ()) q → q + 16 ≤ a ∨ a + x.size ≤ q := by
    intro q hq hon
    obtain ⟨r,hr,h1,-,h2⟩ := h.tiled.arena ha
    have h2 := h2 hx
    have ho := h.tiled.order r hr
    rcases hon with rfl | hFq
    · rcases h.heads (some ()) r hr with h | h <;> lia
    · rcases (h.listed _ _).1 hFq with ⟨hno,-⟩ | ⟨c,u,rfl,hc,hkc,-,-⟩
      · cases hno
      · have hsc := h.size hc (by rw [hkc]; exact nofun)
        rcases Nat.lt_trichotomy c a with hca | hca | hca
        · have := h.tiled.apart c u a x hc ha hca
          lia
        · exact absurd (by rw [hca]; rfl) hq
        · have := h.tiled.apart a x c u ha hc hca
          lia
  have hpne := h.rings.prev_ne hF
  have hzne := h.rings.next_ne hF
  obtain ⟨hms,hun⟩ := unlink_splitBlock (f := prevAllocBit) (n := x.size) (a := a) (m := m) rfl rfl (hout _ hpne hprv.1) (hout _ hzne hnxt.1)
    (h.rings.apart _ _ hprv.1.node hnxt.1.node) hk32 hkx
  have hpon := hkeep _ hpne hprv.1
  have hin := fun w h1 h2 => hrem.outside (w := w) ha h1 h2 fun _ hn => absurd rfl hn
  have hrS : Rings (setFreeMb (setFreeMb (unlink m (entry a)) (a + k) (x.size - k) prevAllocBit) a k prevAllocBit) head
      (update F (entry a) none) :=
    (hrem.rings.setFreeMb (hin _ (by lia) (by lia)) (hin _ (by lia) (by lia)) _).setFreeMb (hin _ (by lia) (by lia))
      (hin _ (by lia) (by lia)) _
  refine ⟨_,?_,hms,?_,fun w hw hno => ?_⟩
  case refine_3 =>
    have hw' : Outside head (update F (entry a) none) w := by
      rintro v (⟨j,rfl⟩ | ⟨j,hj⟩)
      · exact hw _ (.inl ⟨j,rfl⟩)
      · refine hw v (.inr ⟨j,?_⟩)
        by_cases hv : v = entry a
        · rw [hv,update_self] at hj
          cases hj
        · rwa [update_of_ne hv] at hj
    rw [hun,show m (a + 16) = m (entry a + 8) from rfl,link_frame (by unfold entry unitsize; lia) (by unfold entry unitsize; lia) (hw' _ hpon.node).1 (hw' _ (hrS.next hpon).1.node).2,
      setFreeMb_frame (by lia) (by lia),setFreeMb_frame (by lia) (by lia)]
    exact (h.rings.unlink hF).2 w hw
  · have hflags : m a &&& ctlbmask = prevAllocBit := by
      rw [h.tags a x ha,tag_flags (h.eights ha),hxe]
      rfl
    rw [splitBlock,if_neg (by rw [not_not]; exact Nat.mod_eq_zero_of_dvd h8)]
    dsimp only
    rw [hflags,h.mbSize ha hx]
  · rw [hun]
    obtain ⟨y,hy⟩ := h.tiled.next ha hx
    have hyp : y.prev = false := by
      have hafter := h.after a x y ha hx not_false hy
      cases hp : y.prev with
      | false => rfl
      | true => rw [hafter.1 hp] at hk; cases hk
    exact hrem.cut (n := x.size) (by rw [ha,← hxe]) hy hyp h8 hk32 hkx hpon

/-! ## Taking a block -/

theorem takeFit_spec (g : FirstFit P B F dm) (ha : B a = some x) (hk : x.kind = .free) (h8 : 8 ∣ amt) (h32 : 32 ≤ amt)
    (hfit : amt ≤ x.size) : ∃ dm' B' F' k, takeFit dm a amt = some (a + 8,dm') ∧ FirstFit P B' F' dm' ∧ dm'.pools = dm.pools ∧
      dm'.blocks = dm.blocks ∧ amt ≤ k ∧ (∀ c n, InUse B' c n ↔ InUse B c n ∨ c = a ∧ n = k) ∧
      (∀ c s w, InUse B c s → c < w → w < c + s → dm'.mem w = dm.mem w) ∧
      (dm'.current = entry (a + k) ∨ k = x.size ∧ k ≤ amt + minsz ∧ dm'.current = dm.mem (entry a)) := by
  have hx : x.kind ≠ .fence := by rw [hk]; exact nofun
  have hF : F (entry a) = some (some ()) := (g.heap.listed _ _).2 (.inr ⟨a,x,rfl,ha,hk,not_false,rfl⟩)
  have hsize := g.heap.mbSize ha hx
  have hother : ∀ c s, InUse B c s → c ≠ a := fun c s hu =>
    hu.apart g.heap.tiled ha (fun _ he => by rw [hk] at he; cases he) (Nat.le_refl a) (Nat.lt_add_of_pos_right (g.heap.tiled.pos ha))
  rw [takeFit,hsize]
  by_cases hsplit : x.size > amt + minsz
  · obtain ⟨ms,hms,hnext,hheap,hframe⟩ := splitRem_spec g.heap ha hk h8 h32 (Nat.le_of_lt hsplit)
    have ha1 : update (update B (a + amt) (some (⟨x.size - amt,.free,true⟩ : Blk))) a (some ⟨amt,.free,true⟩) a =
        some ⟨amt,.free,true⟩ := update_self ..
    have hc1 : update (update B (a + amt) (some (⟨x.size - amt,.free,true⟩ : Blk))) a (some ⟨amt,.free,true⟩) (a + amt) =
        some ⟨x.size - amt,.free,true⟩ := by rw [update_of_ne (by lia),update_self]
    obtain ⟨hgive,huse⟩ := hheap.give ha1 hc1
    rw [if_pos hsplit,hms]
    refine ⟨_,_,_,amt,rfl,⟨hgive,?_,g.init⟩,rfl,rfl,Nat.le_refl _,fun c n => (huse c n).trans (or_congr_left ⟨?_,?_⟩),
      fun c s w hu hcw hws => ?_,.inl hnext⟩
    case refine_4 =>
      have hne := fun e => hu.word_ne g.heap.tiled ha (hother c s hu) (Nat.le_of_lt hcw) hws (v := e)
      dsimp only
      rw [put_ne (hne _ (by lia) (by lia)),put_ne (hne _ (Nat.le_refl a) (by lia)),
        hframe w (g.heap.held_outside hu (Nat.le_of_lt hcw) hws) fun hin => hne w hin.1 hin.2 rfl]
    · rw [hnext]
      exact .inr (update_self ..)
    · rintro ⟨u,hu,hku,hs⟩
      rcases update_some.1 hu with ⟨-,rfl⟩ | ⟨-,hu⟩
      · cases hku
      · rcases update_some.1 hu with ⟨-,rfl⟩ | ⟨-,hu⟩
        · cases hku
        · exact ⟨u,hu,hku,hs⟩
    · rintro ⟨u,hu,hku,hs⟩
      have hca : c ≠ a := by
        rintro rfl
        cases ha.symm.trans hu
        rw [hk] at hku
        cases hku
      have hck : c ≠ a + amt := by
        rintro rfl
        have := (g.heap.tiled.unique ha hu (w := a + amt) (by lia) (by lia) (Nat.le_refl _)
          (Nat.lt_add_of_pos_right (g.heap.tiled.pos hu))).1
        lia
      exact ⟨u,update_some.2 (.inr ⟨hca,update_some.2 (.inr ⟨hck,hu⟩)⟩),hku,hs⟩
  · have hrem := g.heap.rem (K := (· = a)) ha hk not_false fun c => (false_or _).symm ▸ Iff.rfl
    obtain ⟨y,hy⟩ := g.heap.tiled.next ha hx
    obtain ⟨hgive,huse⟩ := hrem.give (k := x.size) (q := x.prev) (by rw [ha,← hk]) hy
    rw [if_neg hsplit]
    refine ⟨_,_,_,x.size,rfl,⟨hgive,?_,g.init⟩,rfl,rfl,hfit,huse,fun c s w hu hcw hws => ?_,.inr ⟨rfl,Nat.not_lt.1 hsplit,rfl⟩⟩
    · refine (g.heap.rings.next (.inr hF)).1.imp id fun h => ?_
      have hne : dm.mem (entry a) ≠ a + 8 := g.heap.rings.next_ne hF
      have hupd : update F (a + 8) none (dm.mem (entry a)) = F (dm.mem (entry a)) := update_of_ne hne _ _
      exact hupd.trans h
    · have hpos := g.heap.tiled.pos ha
      have hne := fun e => hu.word_ne g.heap.tiled ha (hother c s hu) (Nat.le_of_lt hcw) hws (v := e)
      have hnext : w ≠ a + x.size := by
        rintro rfl
        obtain ⟨u,hc,-,rfl⟩ := hu
        have := (g.heap.tiled.unique hc hy (Nat.le_of_lt hcw) hws (Nat.le_refl _) (Nat.lt_add_of_pos_right (g.heap.tiled.pos hy))).1
        lia
      dsimp only
      rw [put_ne hnext,put_ne (hne _ (Nat.le_refl a) (by lia))]
      exact (g.heap.rings.unlink hF).2 w (g.heap.held_outside hu (Nat.le_of_lt hcw) hws)

end Catlib.Alloc
