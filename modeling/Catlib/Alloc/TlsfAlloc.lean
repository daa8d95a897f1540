import Catlib.Alloc.TlsfSteps

/-! # Allocation in the two-level heap

The search ends at a list all of whose blocks are large enough, and its first block is given into
use, cut if there is enough left. A pool that is added in between has one free block.
-/
namespace Catlib.Alloc

open Function

variable {tlsf : ℕ} {P : List Arena} {B B' : Layout} {H K : ℕ → Prop} {t t' : Tlsf} {F F' : ℕ → Option (Option Cls)}
  {m : Mem} {a b c e k n s w amt mem len : ℕ} {x y z : Blk}

/-! ## The empty heap -/

theorem initHeads_eq (m : Mem) (lists n : ℕ) :
    (∀ i < n, (List.range n).foldl (fun m i => lInit m (lists + 16 * i)) m (lists + 16 * i) = lists + 16 * i ∧
      (List.range n).foldl (fun m i => lInit m (lists + 16 * i)) m (lists + 16 * i + 8) = lists + 16 * i) ∧
    ∀ w < lists, (List.range n).foldl (fun m i => lInit m (lists + 16 * i)) m w = m w := by
  induction n with
  | zero => exact ⟨nofun,fun w _ => rfl⟩
  | succ n ih =>
    rw [List.range_succ,List.foldl_append]
    simp only [List.foldl_cons, List.foldl_nil]
    refine ⟨fun i hi => ?_,fun w hw => ?_⟩
    · by_cases hin : i = n
      · subst hin
        exact ⟨by rw [lInit,put_ne (by omega),put_self],put_self _ _ _⟩
      · obtain ⟨h1,h2⟩ := ih.1 i (by omega)
        constructor
        · rw [lInit,put_ne (by omega),put_ne (by omega),h1]
        · rw [lInit,put_ne (by omega),put_ne (by omega),h2]
    · rw [lInit,put_ne (by omega),put_ne (by omega),ih.2 w hw]

theorem tlsfInit_spec (m : Mem) (htlsf : 0 < tlsf) : Seg tlsf [] (fun _ => none) (fun _ => False) (tlsfInit m tlsf) fun _ => none := by
  have hoff : 16 ≤ listsOffset := by decide
  obtain ⟨hlists,hkeep⟩ := initHeads_eq (lInit m tlsf) (tlsf + listsOffset) numheads
  have hself : ∀ j, (tlsfInit m tlsf).mem (tlsfHeads tlsf j) = tlsfHeads tlsf j ∧ (tlsfInit m tlsf).mem (tlsfHeads tlsf j + 8) = tlsfHeads tlsf j := by
    rw [tlsfInit]
    dsimp only
    generalize (List.range numheads).foldl (fun m i => lInit m (tlsf + listsOffset + 16 * i)) (lInit m tlsf) = M at hlists hkeep
    rintro (_ | c)
    · rw [tlsfHeads,hkeep tlsf (by omega),hkeep (tlsf + 8) (by omega),lInit]
      exact ⟨by rw [put_ne (by omega),put_self],put_self _ _ _⟩
    · exact hlists _ c.place_lt
  have hpos : ∀ j, 0 < tlsfHeads tlsf j := by
    rintro (_ | c)
    · exact htlsf
    · simp only [tlsfHeads]
      omega
  have hnode : ∀ a, Node (tlsfHeads tlsf) (fun _ => none) a → ∃ j, a = tlsfHeads tlsf j := by
    rintro a (⟨j,rfl⟩ | ⟨j,hj⟩)
    · exact ⟨j,rfl⟩
    · cases hj
  have hempty : ∀ c, ¬Filled (fun _ => none) c := by
    rintro c ⟨n,⟨⟩⟩
  refine ⟨⟨⟨by simp,by simp,by simp,by simp,by simp⟩,by simp,by simp,by simp,by simp,by simp,by simp,by simp,by simp,
    ⟨⟨fun _ => [],fun j => ⟨ring_nil.2 (hself j),List.nodup_nil,fun n => iff_of_false (by simp) (by simp)⟩⟩,?_,fun _ => rfl,?_,?_⟩,?_⟩,
    ⟨rfl,fun i hi => ?_,fun i hi => ?_,?_⟩,by simp⟩
  · intro i j h
    have := tlsfHeads_apart tlsf i j
    exact this.resolve_right (by omega)
  · intro a b ha hb
    obtain ⟨i,rfl⟩ := hnode a ha
    obtain ⟨j,rfl⟩ := hnode b hb
    exact (tlsfHeads_apart tlsf i j).imp (fun h => by rw [h]) id
  · intro a ha
    obtain ⟨j,rfl⟩ := hnode a ha
    exact hpos j
  · intro n j
    refine iff_of_false (by rintro ⟨⟩) ?_
    rintro (⟨-,p,hp,-⟩ | ⟨a,x,-,ha,-⟩)
    · cases hp
    · cases ha
  · rw [tlsfInit_l1 m tlsf hi]
    exact ⟨rfl,rfl⟩
  · rw [tlsfInit_l1 m tlsf hi]
    exact Bits.Marks.empty.congr fun j _ => iff_of_false id (by rintro ⟨c,-,-,hc⟩; exact hempty c hc)
  · exact Bits.Marks.empty.congr fun j _ => iff_of_false id (by rintro ⟨c,-,hc⟩; exact hempty c hc)

/-! ## A new pool -/

/-- The arena that `tlsf_add_pool` makes of a region. -/
def tlsfArena (mem len : ℕ) : Arena := ⟨mem,mem + tlsfPoolSize,mem + len / unitsize * unitsize - unitsize⟩

/-- A region of its own, aligned and inside the address space. -/
structure Fresh (tlsf : ℕ) (P : List Arena) (mem len : ℕ) : Prop where
  aligned : 8 ∣ mem
  pos : 0 < mem
  fits : mem + len ≤ 2 ^ 64
  apart : ∀ q ∈ P, mem + len ≤ q.base ∨ q.stop + 8 ≤ mem
  heads : ∀ j, tlsfHeads tlsf j + 16 ≤ mem ∨ mem + len ≤ tlsfHeads tlsf j

theorem tlsfAddPool_spec (g : Seg tlsf P B (fun _ => False) t F) (hlen : 80 ≤ len) (hlt : len < 2 ^ 31) (hfresh : Fresh tlsf P mem len) :
    ∃ t' B' F', tlsfAddPool t mem len = some t' ∧ Seg tlsf (tlsfArena mem len :: P) B' (fun _ => False) t' F' ∧
      (∀ c n, InUse B' c n ↔ InUse B c n) ∧ (∀ c s w, InUse B c s → c < w → w < c + s → t'.mem w = t.mem w) ∧
      ∀ d, Filled F' d ↔ Filled F d ∨ d = clsOf (len / unitsize * unitsize - 48) := by
  obtain ⟨h8,h0,hfit,hfar,hheads⟩ := hfresh
  obtain ⟨ulen,hulen,hu8,hule,hu80⟩ : ∃ ulen, len / unitsize * unitsize = ulen ∧ 8 ∣ ulen ∧ ulen ≤ len ∧ 80 ≤ ulen :=
    ⟨_,rfl,Nat.dvd_mul_left _ _,Nat.div_mul_le_self _ _,by unfold unitsize; lia⟩
  have hq : tlsfArena mem len = ⟨mem,mem + 40,mem + ulen - 8⟩ := by
    rw [tlsfArena,hulen]
    rfl
  have hx8 : 8 ∣ ulen - 48 := Nat.dvd_sub hu8 (by decide)
  have hpos : OnRing (tlsfHeads tlsf) F none (t.mem (t.pools + 8)) := by
    rw [g.maps.pools]
    exact (g.heap.rings.prev (p := tlsf) (i := none) (.inl rfl)).1
  have hlins := g.heap.rings.lIns (n := mem) hpos h0
  obtain ⟨m3,hm3⟩ : ∃ m3, put (put (put (put (put (link t.mem (t.mem (t.pools + 8)) mem) (mem + 16) len) (mem + 24) (ulen - 48)) (mem + 32)
      (mem + 40)) (mem + 40 + (ulen - 48)) allocBit) (mem + 40) ((ulen - 48) ||| (prevAllocBit ||| allocBit)) = m3 := ⟨_,rfl⟩
  have hadd : tlsfAddPool t mem len = tlsfFree { t with mem := m3 } (mem + 40 + 8) := by
    rw [tlsfAddPool]
    dsimp only
    rw [hulen,diff_of_le (by unfold tlsfPoolSize unitsize; lia) (by lia),tlsfInitPool,hlins,Option.map_some,Option.bind_some,← hm3]
    rfl
  have hstop : mem + 40 + (ulen - 48) = mem + ulen - 8 := by lia
  -- a word of the region, and one outside it
  have hsame : ∀ w, w < mem + 16 ∨ mem + ulen ≤ w → m3 w = link t.mem (t.mem (t.pools + 8)) mem w := by
    intro w hw
    rw [← hm3,put_ne (by lia),put_ne (by lia),put_ne (by lia),put_ne (by lia),put_ne (by lia)]
  have hext := g.heap.extend (q := ⟨mem,mem + 40,mem + ulen - 8⟩) (x := ⟨ulen - 48,.used,true⟩) (y := ⟨8,.fence,false⟩) (e := m3)
    (K := (· = mem + 40)) hpos (fun r hr => by have := hfar r hr; dsimp only; lia)
    (fun j => by have := hheads j; dsimp only; lia) h0 (Nat.add_le_add_left (by decide) mem) (Nat.dvd_add h8 (by decide))
    (by dsimp only; lia) hstop (by rintro ⟨⟩) rfl (by dsimp only; lia) hx8 rfl rfl
    (fun w hw => hsame w (by dsimp only at hw; lia)) ?_ ?_ fun b => (false_or _).symm ▸ Iff.rfl
  · obtain ⟨B1,hB1⟩ : ∃ B1, update (update B (mem + ulen - 8) (some (⟨8,.fence,false⟩ : Blk))) (mem + 40)
        (some ⟨ulen - 48,.used,true⟩) = B1 := ⟨_,rfl⟩
    have hfarB : ∀ c u, B c = some u → c + u.size ≤ mem ∨ mem + len ≤ c := by
      intro c u hc
      obtain ⟨r,hr,h1,h2,-⟩ := g.heap.tiled.arena hc
      have := g.heap.tiled.order r hr
      have := hfar r hr
      lia
    have hself : B1 (mem + 40) = some ⟨ulen - 48,.used,true⟩ := by
      rw [← hB1,update_self]
    have hold : ∀ c n, InUse B c n → c ≠ mem + 40 ∧ InUse B1 c n := by
      rintro c n ⟨u,hu,hk,hs⟩
      have hfarc := hfarB c u hu
      have hposc := g.heap.tiled.pos hu
      refine ⟨by lia,u,?_,hk,hs⟩
      rw [← hB1,update_of_ne (by lia),update_of_ne (by lia)]
      exact hu
    have hF : F mem = none := by
      cases hF : F mem with
      | none => rfl
      | some j =>
        rcases g.heap.node_in (n := mem) (.inr ⟨j,hF⟩) with ⟨i,hi⟩ | ⟨r,hr,h1,h2⟩
        · have := hheads i
          lia
        · have := hfar r hr
          lia
    have g1 : Seg tlsf (tlsfArena mem len :: P) B1 (· = mem + 40) { t with mem := m3 } (update F mem (some none)) := by
      rw [hq,← hB1]
      refine ⟨hext,(g.maps.pool hF).mem m3,List.forall_mem_cons.2 ⟨?_,g.small⟩⟩
      dsimp only
      omega
    obtain ⟨t',B2,F2,hfree,g2,hkeep,halone⟩ := g1.freeHole hself (by rintro ⟨⟩)
    refine ⟨t',B2,F2,hadd.trans hfree,g2,fun c n => ?_,fun c s w hu h1 h2 => ?_,fun d => ?_⟩
    · rw [hkeep.used]
      constructor
      · rintro ⟨hu,hc⟩
        rw [← hB1,inUse_update,inUse_update] at hu
        rcases hu with ⟨hc',-,-⟩ | ⟨-,⟨-,hk,-⟩ | ⟨-,hu⟩⟩
        · exact absurd hc' hc
        · cases hk
        · exact hu
      · exact fun hu => ⟨(hold c n hu).2,(hold c n hu).1⟩
    · rw [hkeep.held c s w (hold c s hu).2 (hold c s hu).1 h1 h2]
      have hout := g.heap.held_outside hu (Nat.le_of_lt h1) h2
      obtain ⟨u,hc,-,rfl⟩ := hu
      have hfarc := hfarB c u hc
      dsimp only
      rw [hsame w (by lia),link_frame (by lia) (by lia) (hout _ hpos.node).1 (hout _ (g.heap.rings.next hpos).1.node).2]
    · have hfill : ∀ d, Filled (update F mem (some none)) d ↔ Filled F d := by
        intro d
        constructor
        · rintro ⟨n,hn⟩
          by_cases hne : n = mem
          · rw [hne,update_self] at hn
            cases hn
          · rw [update_of_ne hne] at hn
            exact ⟨n,hn⟩
        · rintro ⟨n,hn⟩
          have hne : n ≠ mem := fun he => by rw [he,hF] at hn; cases hn
          exact ⟨n,by rw [update_of_ne hne]; exact hn⟩
      rw [halone rfl (fun y hy => ?_) d,hfill,hulen]
      dsimp only at hy
      rw [hstop,← hB1,update_of_ne (by lia),update_self] at hy
      cases hy
      rintro ⟨⟩
  · rw [← hm3,put_self]
    have hflags : prevAllocBit ||| allocBit = flags ⟨ulen - 48,.used,true⟩ := by
      rw [flags,if_neg (by rintro ⟨⟩),if_pos rfl]
      rfl
    rw [hflags]
    exact or_flags (x := ⟨ulen - 48,.used,true⟩) hx8 (by rintro ⟨⟩)
  · dsimp only
    rw [← hm3,put_ne (by lia),hstop,put_self]
    rfl

/-! ## A block from a list -/

theorem Seg.first (g : Seg tlsf P B (fun _ => False) t F) {d : Cls} (hd : Filled F d) :
    ∃ a x, t.mem (tlsfHeads tlsf (some d)) = a + 8 ∧ B a = some x ∧ x.kind = .free ∧ clsOf x.size = d := by
  obtain ⟨e,he⟩ := hd
  have hne : t.mem (tlsfHeads tlsf (some d)) ≠ tlsfHeads tlsf (some d) := fun h0 => g.heap.rings.empty_iff.1 h0 e he
  have hF := ((g.heap.rings.next (p := tlsfHeads tlsf (some d)) (i := some d) (.inl rfl)).1).resolve_left hne
  rcases (g.heap.listed _ _).1 hF with ⟨hno,-⟩ | ⟨a,x,ha,hb,hk,-,hcls⟩
  · cases hno
  · exact ⟨a,x,ha,hb,hk,(Option.some.inj hcls).symm⟩

theorem Seg.give {q : Bool} (g : Seg tlsf P B (· = a) t F) (ha : B a = some ⟨k,.free,q⟩) :
    ∃ t' B', (let m := put t.mem a (t.mem a ||| allocBit)
        let nextp := a + mbSize m a
        { t with mem := put m nextp (m nextp ||| prevAllocBit) }) = t' ∧ Seg tlsf P B' (fun _ => False) t' F ∧
      (∀ c n, InUse B' c n ↔ InUse B c n ∨ c = a ∧ n = k) ∧ ∀ c s w, InUse B c s → c < w → w < c + s → t'.mem w = t.mem w := by
  obtain ⟨y,hy⟩ := g.heap.tiled.next ha (by rintro ⟨⟩)
  have hy : B (a + k) = some y := hy
  have h32 : 32 ≤ k := g.heap.size ha (by rintro ⟨⟩)
  have h8 : 8 ∣ k := g.heap.eights ha
  have hlt : k < 2 ^ 64 := (g.heap.lt ha).2
  obtain ⟨hheap,huse⟩ := g.heap.give ha hy
  have hsize : mbSize (put t.mem a (t.mem a ||| allocBit)) a = k := by
    rw [mbSize,put_self,g.heap.tags a _ ha,tag_or_alloc h8 rfl]
    exact tag_size (x := ⟨k,.used,q⟩) h8 hlt (by rintro ⟨⟩)
  refine ⟨_,_,rfl,⟨?_,g.maps.mem _,g.small⟩,huse,fun c s w hu h1 h2 => ?_⟩
  · dsimp only
    rw [hsize]
    exact hheap
  · have hca : c ≠ a := hu.apart g.heap.tiled ha (by rintro _ ⟨⟩) (Nat.le_refl a) (by dsimp only; omega)
    have hne := hu.word_ne g.heap.tiled ha hca (Nat.le_of_lt h1) h2 (Nat.le_refl a) (by dsimp only; omega)
    dsimp only
    rw [hsize,put_ne ?_,put_ne hne]
    rintro rfl
    obtain ⟨u,hc,-,rfl⟩ := hu
    have := (g.heap.tiled.unique hc hy (Nat.le_of_lt h1) h2 (Nat.le_refl _) (Nat.lt_add_of_pos_right (g.heap.tiled.pos hy))).1
    omega

theorem tlsfExtract_spec (g : Seg tlsf P B (fun _ => False) t F) {d : Cls} (hd : Filled F d) (h8 : 8 ∣ amt) (h32 : 32 ≤ amt)
    (hle : amt ≤ d.lower) : ∃ a k t' B' F', tlsfExtract t (tlsfHeads tlsf (some d)) amt d.index = some (a + 8,t') ∧
      Seg tlsf P B' (fun _ => False) t' F' ∧ amt ≤ k ∧ Gives B B' t.mem t'.mem a k := by
  obtain ⟨a,x,hhead,ha,hk,hcls⟩ := g.first hd
  have hx : x.kind ≠ .fence := by rw [hk]; exact nofun
  have hx31 := g.lt ha hx
  have hx32 := g.heap.size ha hx
  have hrange := (clsOf_range (n := x.size) (by lia) (by lia)).1
  rw [hcls] at hrange
  have hnew : ∀ n, ¬InUse B a n := fun n hu =>
    hu.apart g.heap.tiled ha (fun _ he => by rw [hk] at he; cases he) (Nat.le_refl a) (by lia) rfl
  rw [tlsfExtract,hhead,show a + 8 - unitsize = a from rfl]
  dsimp only
  rw [g.heap.mbSize ha hx,diff_of_le (by lia) (by lia)]
  obtain ⟨n,rfl⟩ : ∃ n, x = ⟨n,.free,true⟩ := ⟨x.size,by rw [← hk,← g.heap.alone a x ha hk not_false]⟩
  dsimp only at hrange hx31 hx32 ⊢
  by_cases hcut : n - amt ≥ tlsfMinsz
  · have hroom : 32 ≤ n - amt := hcut
    obtain ⟨t1,hsplit,g1,hkeep⟩ := g.split ha h8 h32 (by lia)
    obtain ⟨t',B',rfl,g2,huse,hheld⟩ := g1.give (update_self ..)
    have hmid : ∀ c s, InUse B c s ↔
        InUse (update (update B (a + amt) (some (⟨n - amt,.free,true⟩ : Blk))) a (some ⟨amt,.free,true⟩)) c s := by
      intro c s
      rw [inUse_update,inUse_update]
      constructor
      · intro hu
        have hne := fun e => hu.apart g.heap.tiled ha (fun _ => nofun) (w := e)
        exact .inr ⟨hne a (Nat.le_refl a) (by dsimp only; lia),.inr ⟨hne _ (by lia) (by dsimp only; lia),hu⟩⟩
      · rintro (⟨-,hk,-⟩ | ⟨-,⟨-,hk,-⟩ | ⟨-,hu⟩⟩)
        · cases hk
        · cases hk
        · exact hu
    rw [if_pos hcut,hsplit,Option.map_some]
    refine ⟨a,amt,_,B',_,rfl,g2,Nat.le_refl amt,hnew,fun c s => ?_,fun c s w hu h1 h2 => ?_⟩
    · rw [huse,hmid]
    · rw [hheld c s w ((hmid c s).1 hu) h1 h2]
      refine hkeep w (g.heap.held_outside hu (Nat.le_of_lt h1) h2) fun hin => ?_
      have hca : c ≠ a := hu.apart g.heap.tiled ha (fun _ => nofun) (Nat.le_refl a) (by dsimp only; lia)
      exact hu.word_ne g.heap.tiled ha hca (Nat.le_of_lt h1) h2 hin.1 hin.2 rfl
  · have hF : F (entry a) = some (some d) := by
      rw [← hcls]
      exact (g.heap.listed _ _).2 (.inr ⟨a,_,rfl,ha,rfl,not_false,rfl⟩)
    obtain ⟨t1,hrem,hmem,hmaps⟩ := tlsfRemBlk_eq g.maps g.heap.rings hF
    have g1 : Seg tlsf P B (· = a) t1 (update F (entry a) none) := by
      refine ⟨?_,hmaps,g.small⟩
      rw [hmem]
      exact g.heap.rem ha rfl not_false fun b => (false_or _).symm ▸ Iff.rfl
    obtain ⟨t',B',rfl,g2,huse,hheld⟩ := g1.give ha
    rw [if_neg hcut,Cls.index_shift,Cls.index_mask,hrem,Option.map_some]
    refine ⟨a,n,_,B',_,rfl,g2,by lia,hnew,huse,fun c s w hu h1 h2 => ?_⟩
    rw [hheld c s w hu h1 h2,hmem]
    exact (g.heap.rings.unlink hF).2 w (g.heap.held_outside hu (Nat.le_of_lt h1) h2)

end Catlib.Alloc
