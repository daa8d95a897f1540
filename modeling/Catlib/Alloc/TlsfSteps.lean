import Catlib.Alloc.TlsfLists
import Catlib.Alloc.Steps

/-! # The steps of the two-level heap

Blocks come off their lists, are cut and joined, and go back on the list of their size. What the
owners of other blocks in use have written stays.
-/
namespace Catlib.Alloc

open Function

variable {tlsf : ℕ} {P : List Arena} {B B' : Layout} {H K : ℕ → Prop} {t t' : Tlsf} {F F' : ℕ → Option (Option Cls)}
  {m : Mem} {a b c e k n s w amt : ℕ} {x y z : Blk}

/-- The heap but for its holes, with pools whose lengths the classes can hold. -/
structure Seg (tlsf : ℕ) (P : List Arena) (B : Layout) (H : ℕ → Prop) (t : Tlsf) (F : ℕ → Option (Option Cls)) : Prop where
  heap : Heap clsOf (tlsfHeads tlsf) P B H t.mem F
  maps : Maps tlsf t F
  small : ∀ p ∈ P, p.stop < p.start + 2 ^ 31

theorem Seg.lt (g : Seg tlsf P B H t F) (ha : B a = some x) (hk : x.kind ≠ .fence) : x.size < 2 ^ 31 := by
  obtain ⟨p,hp,h1,-,h2⟩ := g.heap.tiled.arena ha
  have := h2 hk
  have := g.small p hp
  omega

/-! ## What the owners hold -/

theorem mbSize_setFreeMb (h8 : 8 ∣ n) (h1 : 8 ≤ n) (hn : n < 2 ^ 64) : mbSize (setFreeMb m a n prevAllocBit) a = n := by
  have hflags : prevAllocBit = flags ⟨n,.free,true⟩ := rfl
  rw [hflags,setFreeMb_tag (x := ⟨n,.free,true⟩) h8 (by rintro ⟨⟩),mbSize]
  dsimp only
  by_cases hone : n = 8
  · rw [hone,show a + 8 - 8 = a from rfl,put_self]
    exact tag_size (x := ⟨8,.free,false⟩) (by decide) (by decide) (by rintro ⟨⟩)
  · rw [put_ne (by omega),put_self]
    exact tag_size (x := ⟨n,.free,true⟩) h8 hn (by rintro ⟨⟩)

/-! ## Taking off and putting on -/

theorem Seg.rem (g : Seg tlsf P B H t F) (ha : B a = some x) (hk : x.kind = .free) (hH : ¬H a) (hK : ∀ b, K b ↔ H b ∨ b = a) :
    ∃ t', tlsfRemBlkC t a = some t' ∧ t'.mem = unlink t.mem (entry a) ∧ Seg tlsf P B K t' (update F (entry a) none) ∧
      ∀ w, Outside (tlsfHeads tlsf) F w → t'.mem w = t.mem w := by
  have hx : x.kind ≠ .fence := by rw [hk]; exact nofun
  have hF : F (entry a) = some (some (clsOf x.size)) := (g.heap.listed _ _).2 (.inr ⟨a,x,rfl,ha,hk,hH,rfl⟩)
  have h32 := g.heap.size ha hx
  obtain ⟨t',hrem,hmem,hmaps⟩ := tlsfRemBlk_eq g.maps g.heap.rings hF
  refine ⟨t',?_,hmem,⟨?_,hmaps,g.small⟩,fun w hw => ?_⟩
  · rw [tlsfRemBlkC,g.heap.mbSize ha hx,calcTlsfIndices_eq (by omega) (g.lt ha hx),Option.bind_some,Cls.index_shift,
      Cls.index_mask,hrem]
  · rw [hmem]
    exact g.heap.rem ha hk hH hK
  · rw [hmem]
    exact (g.heap.rings.unlink hF).2 w hw

theorem tlsfInsBlkC_eq (mp : Maps tlsf t F) (r : Rings t.mem (tlsfHeads tlsf) F) (hn : mbSize t.mem a = n) (h8 : 8 ≤ n)
    (hlt : n < 2 ^ 31) (hF : F (entry a) = none) : ∃ t', tlsfInsBlkC t a = some t' ∧
      t'.mem = link t.mem (tlsfHeads tlsf (some (clsOf n))) (entry a) ∧ Maps tlsf t' (update F (entry a) (some (some (clsOf n)))) := by
  obtain ⟨t',hins,hmem,hmaps⟩ := tlsfInsBlk_eq mp r (clsOf n) hF
  refine ⟨t',?_,hmem,hmaps⟩
  rw [tlsfInsBlkC,hn,calcTlsfIndices_eq h8 hlt,Option.bind_some,Cls.index_shift,Cls.index_mask,hins]

theorem Heap.entry_none {ι : Type*} {cls : ℕ → ι} {head : Option ι → ℕ} {F : ℕ → Option (Option ι)}
    (h : Heap cls head P B H m F) (ha : B a = some x) (hH : x.kind = .free → H a) (hb : a ≤ b)
    (hb' : entry b < a + x.size) : F (entry b) = none := by
  have hin : a ≤ entry b := by unfold entry; omega
  have hout : Outside head F (entry b) := h.outside ha hin hb' fun hf hn => absurd (hH hf) hn
  cases hF : F (entry b) with
  | none => rfl
  | some j => exact absurd rfl (hout _ (.inr ⟨j,hF⟩)).1

theorem Rings.link_head {ι : Type*} {head : ι → ℕ} {F : ℕ → Option ι} (r : Rings m head F) (i : ι) (hw : Outside head F w)
    (h1 : w ≠ n) (h2 : w ≠ n + 8) : Alloc.link m (head i) n w = m w :=
  link_frame h1 h2 (hw _ (.inl ⟨i,rfl⟩)).1 (hw _ (r.next (p := head i) (i := i) (.inl rfl)).1.node).2

theorem Seg.ins (g : Seg tlsf P B H t F) (ha : B a = some x) (hk : x.kind = .free) (hH : H a) (hp : x.prev = true)
    (hf : t.mem (a + x.size - 8) = x.size) (hn : B (a + x.size) = some y) (hy : y.prev = false) (hK : ∀ b, K b ↔ H b ∧ b ≠ a) :
    ∃ t', tlsfInsBlkC t a = some t' ∧ Seg tlsf P B K t' (update F (entry a) (some (some (clsOf x.size)))) ∧
      ∀ w, Outside (tlsfHeads tlsf) F w → w ≠ entry a → w ≠ entry a + 8 → t'.mem w = t.mem w := by
  have hx : x.kind ≠ .fence := by rw [hk]; exact nofun
  have h32 := g.heap.size ha hx
  obtain ⟨t',hins,hmem,hmaps⟩ := tlsfInsBlkC_eq g.maps g.heap.rings (g.heap.mbSize ha hx) (by omega) (g.lt ha hx)
    (g.heap.entry_none ha (fun _ => hH) (Nat.le_refl a) (by unfold entry unitsize; omega))
  refine ⟨t',hins,⟨?_,hmaps,g.small⟩,fun w hw h1 h2 => ?_⟩
  · rw [hmem]
    exact g.heap.ins ha hk hH hp hf hn hy (.inl rfl) hK
  · rw [hmem]
    exact g.heap.rings.link_head _ hw h1 h2

/-! ## Cutting -/

theorem splitBlk_mem (g : Seg tlsf P B (fun _ => False) t F) (ha : B a = some ⟨n,.free,true⟩) (h8 : 8 ∣ k) (hk : 8 ≤ k) (hkn : k + 32 ≤ n) :
    ∃ t', tlsfSplitBlk t a k = some t' ∧
      t'.mem = link (setFreeMb (setFreeMb (unlink t.mem (entry a)) (a + k) (n - k) prevAllocBit) a k prevAllocBit)
        (tlsfHeads tlsf (some (clsOf (n - k)))) (entry (a + k)) ∧
      Maps tlsf t' (update (update F (entry a) none) (entry (a + k)) (some (some (clsOf (n - k))))) ∧
      ∀ w, Outside (tlsfHeads tlsf) F w → ¬(a ≤ w ∧ w < a + n) → t'.mem w = t.mem w := by
  obtain ⟨t1,hrem,hmem1,g1,hkeep⟩ := g.rem (K := (· = a)) ha rfl not_false fun b => (false_or _).symm ▸ Iff.rfl
  have hn8 : 8 ∣ n := g.heap.eights ha
  have hlt : n < 2 ^ 31 := g.lt ha nofun
  have hflags : t1.mem a &&& ctlbmask = prevAllocBit := by
    rw [g1.heap.tags a _ ha,tag_flags hn8]
    rfl
  have hsize : mbSize t1.mem a = n := g1.heap.mbSize ha nofun
  have hout : ∀ w, a ≤ w → w < a + n → Outside (tlsfHeads tlsf) (update F (entry a) none) w := fun w h1 h2 =>
    g1.heap.outside ha h1 h2 fun _ hn => absurd rfl hn
  obtain ⟨M,hM⟩ : ∃ M, setFreeMb (setFreeMb t1.mem (a + k) (n - k) prevAllocBit) a k prevAllocBit = M := ⟨_,rfl⟩
  have hr : Rings M (tlsfHeads tlsf) (update F (entry a) none) := by
    rw [← hM]
    exact (g1.heap.rings.setFreeMb (hout _ (by lia) (by lia)) (hout _ (by lia) (by lia)) _).setFreeMb
      (hout _ (by lia) (by lia)) (hout _ (by lia) (by lia)) _
  have hmb : mbSize M (a + k) = n - k := by
    rw [← hM,mbSize,setFreeMb_frame (by lia) (by lia),← mbSize]
    exact mbSize_setFreeMb (Nat.dvd_sub hn8 h8) (by lia) (by lia)
  have hF : update F (entry a) none (entry (a + k)) = none :=
    g1.heap.entry_none ha (fun _ => rfl) (Nat.le_add_right a k) (by unfold entry unitsize; dsimp only; lia)
  obtain ⟨t2,hins,hmem2,hmaps2⟩ := tlsfInsBlkC_eq (t := { t1 with mem := M }) (g1.maps.mem M) hr hmb (by lia) (by lia) hF
  refine ⟨t2,?_,?_,hmaps2,fun w hw hno => ?_⟩
  · rw [tlsfSplitBlk,hrem,Option.bind_some]
    dsimp only
    rw [hflags,hsize,diff_of_le (by lia) (by lia),hM,hins]
  · rw [hmem2]
    dsimp only
    rw [← hM,hmem1]
  · have hw' : Outside (tlsfHeads tlsf) (update F (entry a) none) w := by
      rintro v (⟨j,rfl⟩ | ⟨j,hj⟩)
      · exact hw _ (.inl ⟨j,rfl⟩)
      · by_cases hv : v = entry a
        · rw [hv,update_self] at hj
          cases hj
        · rw [update_of_ne hv] at hj
          exact hw v (.inr ⟨j,hj⟩)
    rw [hmem2,Rings.link_head hr _ hw' (by unfold entry unitsize; lia) (by unfold entry unitsize; lia)]
    rw [← hM,setFreeMb_frame (by lia) (by lia),setFreeMb_frame (by lia) (by lia),hkeep w hw]

theorem Seg.split (g : Seg tlsf P B (fun _ => False) t F) (ha : B a = some ⟨n,.free,true⟩) (h8 : 8 ∣ k) (hk : 32 ≤ k) (hkn : k + 32 ≤ n) :
    ∃ t', tlsfSplitBlk t a k = some t' ∧
      Seg tlsf P (update (update B (a + k) (some ⟨n - k,.free,true⟩)) a (some ⟨k,.free,true⟩)) (· = a) t'
        (update (update F (entry a) none) (entry (a + k)) (some (some (clsOf (n - k))))) ∧
      ∀ w, Outside (tlsfHeads tlsf) F w → ¬(a ≤ w ∧ w < a + n) → t'.mem w = t.mem w := by
  obtain ⟨t',hsplit,hmem,hmaps,hkeep⟩ := splitBlk_mem g ha h8 (by omega) hkn
  obtain ⟨y,hy⟩ := g.heap.tiled.next ha nofun
  have hyp : y.prev = false := by
    have hafter := g.heap.after a _ y ha nofun not_false hy
    cases hp : y.prev with
    | false => rfl
    | true => exact absurd (hafter.1 hp) nofun
  have hrem := g.heap.rem (K := (· = a)) ha rfl not_false fun c => (false_or _).symm ▸ Iff.rfl
  refine ⟨t',hsplit,⟨?_,hmaps,g.small⟩,hkeep⟩
  rw [hmem]
  exact hrem.cut ha hy hyp h8 hk hkn (.inl rfl)

end Catlib.Alloc

/-! # Freeing in the two-level heap

A block is marked free and joined with its free neighbours, and the joined block goes on the list of
its size. A new pool is one block in use that is freed.
-/
namespace Catlib.Alloc

open Function

variable {tlsf : ℕ} {P : List Arena} {B B' : Layout} {H K : ℕ → Prop} {t t' : Tlsf} {F F' : ℕ → Option (Option Cls)}
  {m : Mem} {a b c e k n s w amt : ℕ} {x y z : Blk}

/-- What is kept of the blocks in use but `a`: they are the same, and what is behind their tags. -/
structure Keeps (B B' : Layout) (m m' : Mem) (a : ℕ) : Prop where
  used : ∀ c s, InUse B' c s ↔ InUse B c s ∧ c ≠ a
  held : ∀ c s w, InUse B c s → c ≠ a → c < w → w < c + s → m' w = m w

theorem Keeps.trans {B'' : Layout} {m' m'' : Mem} (h : Keeps B B' m m' a) (h' : Keeps B' B'' m' m'' a) : Keeps B B'' m m'' a := by
  refine ⟨fun c s => ?_,fun c s w hu hc h1 h2 => ?_⟩
  · rw [h'.used,h.used]
    exact ⟨fun h => h.1,fun h => ⟨h,h.2⟩⟩
  · rw [h'.held c s w ((h.used c s).2 ⟨hu,hc⟩) hc h1 h2,h.held c s w hu hc h1 h2]

theorem tlsfJoinBack_spec (g : Seg tlsf P B (· = a) t F) (ha : B a = some x) (hx : x.kind ≠ .fence) :
    ∃ b n t' B' F', tlsfJoinBack t a = some (b,n,t') ∧ Seg tlsf P B' (· = b) t' F' ∧ B' b = some ⟨n,.free,true⟩ ∧
      t'.mem (b + n - 8) = n ∧ Keeps B B' t.mem t'.mem a ∧
      (x.prev = true → b = a ∧ n = x.size ∧ F' = F ∧ B' = update B a (some ⟨x.size,.free,true⟩)) := by
  have hsize := g.heap.mbSize ha hx
  have h32 := g.heap.size ha hx
  obtain ⟨hset,hfoot⟩ := g.heap.setFree (z := ⟨x.size,.free,x.prev⟩) ha rfl hx (by rintro ⟨⟩) rfl rfl
  have hbits : t.mem a &&& prevAllocBit = flags ⟨x.size,.free,x.prev⟩ := by
    rw [g.heap.tags a x ha,tag_prev (g.heap.eights ha),flags,if_pos rfl,Nat.zero_add]
  obtain ⟨m1,hm1⟩ : ∃ m1, setFreeMb t.mem a x.size (flags ⟨x.size,.free,x.prev⟩) = m1 := ⟨_,rfl⟩
  obtain ⟨B1,hB1⟩ : ∃ B1, update B a (some (⟨x.size,.free,x.prev⟩ : Blk)) = B1 := ⟨_,rfl⟩
  have hself : B1 a = some ⟨x.size,.free,x.prev⟩ := by rw [← hB1,update_self]
  dsimp only at hset hfoot
  rw [hm1,hB1] at hset
  rw [hm1] at hfoot
  have huse : ∀ c s, InUse B1 c s ↔ InUse B c s ∧ c ≠ a := by
    intro c s
    rw [← hB1,inUse_update]
    constructor
    · rintro (⟨-,hk,-⟩ | ⟨hc,hu⟩)
      · cases hk
      · exact ⟨hu,hc⟩
    · rintro ⟨hu,hc⟩
      exact .inr ⟨hc,hu⟩
  have hheld : ∀ c s w, InUse B c s → c ≠ a → c < w → w < c + s → m1 w = t.mem w := by
    intro c s w hu hc h1 h2
    have hne := fun e => hu.word_ne g.heap.tiled ha hc (Nat.le_of_lt h1) h2 (v := e)
    rw [← hm1,setFreeMb_frame (hne a (Nat.le_refl a) (by lia)) (hne _ (by lia) (by lia))]
  rw [tlsfJoinBack]
  dsimp only
  rw [hsize,hbits,hm1]
  cases hp : x.prev with
  | true =>
    rw [hp] at hself
    rw [if_neg fun h0 => by have := (hset.prev_zero hself).1 h0; cases this]
    exact ⟨a,x.size,_,B1,F,rfl,⟨hset,g.maps.mem m1,g.small⟩,hself,hfoot,⟨huse,hheld⟩,
      fun _ => ⟨rfl,rfl,rfl,by rw [← hB1,hp]⟩⟩
  | false =>
    rw [hp] at hself
    obtain ⟨b,y,hb,hky,hyp,hby,hword,hheap,-⟩ := hset.joinBack hself (by rintro ⟨⟩) rfl
    have hpos := hset.tiled.pos hb
    have g1 : Seg tlsf P B1 (· = a) { t with mem := m1 } F := ⟨hset,g.maps.mem m1,g.small⟩
    obtain ⟨t1,hrem,hmem,g2,hkeep⟩ := g1.rem (K := fun c => c = a ∨ c = b) hb hky (by lia) fun c => Iff.rfl
    rw [if_pos ((hset.prev_zero hself).2 rfl),show a - unitsize = a - 8 from rfl,hword,show a - y.size = b by lia,hrem,Option.map_some,
      Nat.add_comm x.size]
    refine ⟨b,y.size + x.size,_,update (update B1 a none) b (some ⟨y.size + x.size,.free,true⟩),_,rfl,⟨?_,g2.maps.mem _,g.small⟩,
      update_self ..,put_self _ _ _,⟨fun c s => ?_,fun c s w hu hc h1 h2 => ?_⟩,by rintro ⟨⟩⟩
    · dsimp only at hmem hheap ⊢
      rw [hmem]
      exact hheap
    · rw [inUse_update,inUse_remove,huse]
      constructor
      · rintro (⟨-,hk,-⟩ | ⟨-,-,hu⟩)
        · cases hk
        · exact hu
      · intro hu
        have hcb : c ≠ b := ((huse c s).2 hu).apart hset.tiled hb (fun _ he => by rw [hky] at he; cases he) (Nat.le_refl b) (by lia)
        exact .inr ⟨hcb,hu.2,hu⟩
    · have hu1 := (huse c s).2 ⟨hu,hc⟩
      have hcb : c ≠ b := hu1.apart hset.tiled hb (fun _ he => by rw [hky] at he; cases he) (Nat.le_refl b) (by lia)
      have hneb := fun e => hu1.word_ne hset.tiled hb hcb (Nat.le_of_lt h1) h2 (v := e)
      have hnea := fun e => hu.word_ne g.heap.tiled ha hc (Nat.le_of_lt h1) h2 (v := e)
      dsimp only at hkeep ⊢
      rw [setFreeMb_frame (hneb b (Nat.le_refl b) (by lia)) (hnea _ (by lia) (by lia)),
        hkeep w (hset.held_outside hu1 (Nat.le_of_lt h1) h2),hheld c s w hu hc h1 h2]

theorem tlsfJoinFront_spec (g : Seg tlsf P B (· = a) t F) (ha : B a = some ⟨n,.free,true⟩) (hf : t.mem (a + n - 8) = n) :
    ∃ n' t' B' F', tlsfJoinFront a n t = some t' ∧ Seg tlsf P B' (· = a) t' F' ∧ Ready B' t'.mem a n' ∧
      (∀ c s, InUse B' c s ↔ InUse B c s) ∧ (∀ c s w, InUse B c s → c < w → w < c + s → t'.mem w = t.mem w) ∧
      ((∀ y, B (a + n) = some y → y.kind ≠ .free) → n' = n ∧ F' = F) := by
  obtain ⟨y,hy⟩ := g.heap.tiled.next ha nofun
  have hy : B (a + n) = some y := hy
  have h32 : 32 ≤ n := g.heap.size ha nofun
  have hca : ∀ c s, InUse B c s → c ≠ a := fun c s hu =>
    hu.apart g.heap.tiled ha (fun _ => nofun) (Nat.le_refl a) (by dsimp only; omega)
  rw [tlsfJoinFront]
  by_cases hk : y.kind = .free
  · have hyf : y.kind ≠ .fence := by rw [hk]; exact nofun
    have hposy := g.heap.size hy hyf
    obtain ⟨hheap,hready,-⟩ := g.heap.joinFront ha nofun rfl hy hk
    obtain ⟨t1,hrem,hmem,g1,hkeep⟩ := g.rem (K := fun c => c = a ∨ c = a + n) hy hk (by omega) fun c => Iff.rfl
    have hcn : ∀ c s, InUse B c s → c ≠ a + n := fun c s hu =>
      hu.apart g.heap.tiled hy (fun _ he => by rw [hk] at he; cases he) (Nat.le_refl _) (by omega)
    rw [if_pos ((g.heap.alloc_zero hy).2 hk),hrem,Option.map_some,g1.heap.mbSize hy hyf]
    refine ⟨n + y.size,_,update (update B (a + n) none) a (some ⟨n + y.size,.free,true⟩),_,rfl,⟨?_,g1.maps.mem _,g.small⟩,?_,
      fun c s => ?_,fun c s w hu h1 h2 => ?_,fun h => absurd hk (h y hy)⟩
    · rw [hmem]
      exact hheap
    · rw [hmem]
      exact hready
    · rw [inUse_update,inUse_remove]
      constructor
      · rintro (⟨-,hk,-⟩ | ⟨-,-,hu⟩)
        · cases hk
        · exact hu
      · exact fun hu => .inr ⟨hca c s hu,hcn c s hu,hu⟩
    · have hnea := fun e => hu.word_ne g.heap.tiled ha (hca c s hu) (Nat.le_of_lt h1) h2 (v := e)
      have hney := fun e => hu.word_ne g.heap.tiled hy (hcn c s hu) (Nat.le_of_lt h1) h2 (v := e)
      dsimp only at hnea ⊢
      rw [setFreeMb_frame (hnea a (Nat.le_refl a) (by omega)) (hney _ (by omega) (by omega)),
        hkeep w (g.heap.held_outside hu (Nat.le_of_lt h1) h2)]
  · obtain ⟨hheap,hready⟩ := g.heap.keepFront ha hf hy hk
    rw [if_neg fun h0 => hk ((g.heap.alloc_zero hy).1 h0)]
    refine ⟨n,_,_,F,rfl,⟨hheap,g.maps.mem _,g.small⟩,hready,fun c s => inUse_mark hy false,fun c s w hu h1 h2 => put_ne ?_,
      fun _ => ⟨rfl,rfl⟩⟩
    rintro rfl
    obtain ⟨u,hc,-,rfl⟩ := hu
    have := (g.heap.tiled.unique hc hy (Nat.le_of_lt h1) h2 (Nat.le_refl _) (Nat.lt_add_of_pos_right (g.heap.tiled.pos hy))).1
    omega

theorem Seg.freeHole (g : Seg tlsf P B (· = a) t F) (ha : B a = some x) (hx : x.kind ≠ .fence) :
    ∃ t' B' F', tlsfFree t (a + 8) = some t' ∧ Seg tlsf P B' (fun _ => False) t' F' ∧ Keeps B B' t.mem t'.mem a ∧
      (x.prev = true → (∀ y, B (a + x.size) = some y → y.kind ≠ .free) → ∀ d, Filled F' d ↔ Filled F d ∨ d = clsOf x.size) := by
  obtain ⟨b,n,t1,B1,F1,hback,g1,hb,hf,hkeep1,halone1⟩ := tlsfJoinBack_spec g ha hx
  obtain ⟨n',t2,B2,F2,hfront,g2,hready,huse2,hheld2,halone2⟩ := tlsfJoinFront_spec g1 hb hf
  obtain ⟨y,hy,hyp⟩ := hready.next
  have h32 : 32 ≤ n' := g2.heap.size hready.block nofun
  obtain ⟨t3,hins,g3,hkeep3⟩ := g2.ins (K := fun _ => False) hready.block rfl rfl rfl hready.foot hy hyp
    fun c => ⟨False.elim,fun hc => hc.2 hc.1⟩
  refine ⟨t3,B2,_,?_,g3,hkeep1.trans ⟨fun c s => ?_,fun c s w hu _ h1 h2 => ?_⟩,fun hp hno d => ?_⟩
  · rw [tlsfFree,if_neg (Nat.succ_ne_zero _),show a + 8 - unitsize = a from rfl,tlsfCoalesceAndInsert,hback,Option.bind_some]
    dsimp only
    rw [hfront,Option.bind_some,hins]
  · rw [huse2]
    exact ⟨fun hu => ⟨hu,((hkeep1.used c s).1 hu).2⟩,And.left⟩
  · have hu2 := (huse2 c s).2 hu
    have hcb : c ≠ b := hu2.apart g2.heap.tiled hready.block (fun _ => nofun) (Nat.le_refl b) (by dsimp only; omega)
    have hneb := fun e => hu2.word_ne g2.heap.tiled hready.block hcb (Nat.le_of_lt h1) h2 (v := e)
    dsimp only at hneb
    rw [hkeep3 w (g2.heap.held_outside hu2 (Nat.le_of_lt h1) h2) (hneb _ (by unfold entry; omega) (by unfold entry unitsize; omega))
      (hneb _ (by unfold entry; omega) (by unfold entry unitsize; omega)),hheld2 c s w hu h1 h2]
  · obtain ⟨rfl,rfl,rfl,rfl⟩ := halone1 hp
    have hpos := g.heap.tiled.pos ha
    obtain ⟨rfl,rfl⟩ := halone2 fun y hy => hno y (by rw [update_of_ne (by omega)] at hy; exact hy)
    exact filled_ins (g2.heap.entry_none hready.block (fun _ => rfl) (Nat.le_refl b) (by unfold entry unitsize; dsimp only; omega))

theorem tlsfFree_spec (g : Seg tlsf P B (fun _ => False) t F) (hu : InUse B a n) :
    ∃ t' B' F', tlsfFree t (a + 8) = some t' ∧ Seg tlsf P B' (fun _ => False) t' F' ∧ Keeps B B' t.mem t'.mem a := by
  obtain ⟨x,ha,hk,rfl⟩ := hu
  have hhole := g.heap.unuse (K := (· = a)) ha hk fun c => (false_or _).symm ▸ Iff.rfl
  obtain ⟨t',B',F',hfree,g',hkeep,-⟩ := Seg.freeHole ⟨hhole,g.maps,g.small⟩ ha (by rw [hk]; exact nofun)
  exact ⟨t',B',F',hfree,g',hkeep⟩

end Catlib.Alloc
