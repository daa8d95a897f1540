import Catlib.Alloc.TlsfCalls

/-! # tlsf_realloc

A block in use is cut, or joined with the free block behind it, or copied to a new one. What the owner
has written stays, as far as there is room for it.
-/
namespace Catlib.Alloc

open Function

variable {tlsf : ℕ} {P Q : List Arena} {B B' : Layout} {t t' : Tlsf} {F F' : ℕ → Option (Option Cls)} {a b k n s w i p q amt len newamt : ℕ}
  {c d : Cls} {f : ℕ → ℕ → ℕ} {addMem : Option (ℕ → ℕ → ℕ)} {M : Mem} {v : Bool} {y : Blk}

/-! ## Cutting a block in use -/

theorem tlsfCarve_spec (h : Heap clsOf (tlsfHeads tlsf) P B (· = a) (put M a (tag ⟨n,.used,v⟩)) F) (mp : Maps tlsf t F)
    (hsmall : ∀ p ∈ P, p.stop < p.start + 2 ^ 31) (ha : B a = some ⟨n,.used,v⟩) (hflags : M a &&& ctlbmask = flags ⟨n,.used,v⟩)
    (hc : B (a + n) = some y) (hy : y.prev = false) (h8 : 8 ∣ k) (h16 : 16 ≤ k) (hkn : k + 32 ≤ n) :
    ∃ t', (tlsfInsBlkC { t with mem := setFreeMb M (a + k) (n - k) prevAllocBit } (a + k)).map
        (fun t => { t with mem := put t.mem a (k ||| t.mem a &&& ctlbmask) }) = some t' ∧ mbSize t'.mem a = k ∧
      (32 ≤ k → Seg tlsf P (update (update B (a + k) (some ⟨n - k,.free,true⟩)) a (some ⟨k,.used,v⟩)) (fun _ => False) t'
        (update F (entry (a + k)) (some (some (clsOf (n - k)))))) ∧
      ∀ w, Outside (tlsfHeads tlsf) F w → w ≠ a → ¬(a + k ≤ w ∧ w < a + n) → t'.mem w = M w := by
  have hn8 : 8 ∣ n := h.eights ha
  have hlt : n < 2 ^ 31 := by
    obtain ⟨p,hp,h1,-,h2⟩ := h.tiled.arena ha
    have h2 : a + n ≤ p.stop := h2 nofun
    have := hsmall p hp
    lia
  have hout : ∀ w, a ≤ w → w < a + n → Outside (tlsfHeads tlsf) F w := fun w h1 h2 => h.outside ha h1 h2 nofun
  have hr : Rings M (tlsfHeads tlsf) F := by
    have hr := h.rings.put (hout a (Nat.le_refl a) (by lia)) (M a)
    rw [put_put] at hr
    exact (update_eq_self a M) ▸ hr
  have hr1 : Rings (setFreeMb M (a + k) (n - k) prevAllocBit) (tlsfHeads tlsf) F :=
    hr.setFreeMb (hout _ (by lia) (by lia)) (hout _ (by lia) (by lia)) _
  have hF : F (entry (a + k)) = none := h.entry_none ha nofun (Nat.le_add_right a k) (by unfold entry unitsize; dsimp only; lia)
  obtain ⟨t1,hins,hmem,hmaps⟩ := tlsfInsBlkC_eq (t := { t with mem := setFreeMb M (a + k) (n - k) prevAllocBit }) (mp.mem _) hr1
    (mbSize_setFreeMb (Nat.dvd_sub hn8 h8) (by lia) (by lia)) (by lia) (by lia) hF
  have hkeep : ∀ w, Outside (tlsfHeads tlsf) F w → ¬(a + k ≤ w ∧ w < a + n) → t1.mem w = M w := by
    intro w hw hno
    rw [hmem,hr1.link_head _ hw (by unfold entry unitsize; lia) (by unfold entry unitsize; lia),
      setFreeMb_frame (by lia) (by lia)]
  have htag : (k ||| (t1.mem a &&& ctlbmask)) = tag ⟨k,.used,v⟩ := by
    rw [hkeep a (hout a (Nat.le_refl a) (by lia)) (by lia),hflags]
    exact or_flags (x := ⟨k,.used,v⟩) h8 nofun
  refine ⟨_,by rw [hins]; rfl,?_,fun hk => ⟨?_,hmaps.mem _,hsmall⟩,fun w hw hwa hno => ?_⟩
  · dsimp only
    rw [mbSize,put_self,htag]
    exact tag_size (x := ⟨k,.used,v⟩) h8 (by dsimp only; lia) nofun
  · have hcarve := h.carve ha hc hy h8 hk hkn (.inl rfl)
    -- the tag of the whole block is written over
    have hset : setFreeMb (put M a (tag ⟨n,.used,v⟩)) (a + k) (n - k) prevAllocBit =
        put (setFreeMb M (a + k) (n - k) prevAllocBit) a (tag ⟨n,.used,v⟩) := by
      unfold setFreeMb unitsize
      rw [put_comm (a := a) (b := a + k) (by lia),put_comm (by lia)]
    have ho := hout a (Nat.le_refl a) (by lia)
    rw [hset,link_put (by unfold entry unitsize; lia) (by unfold entry unitsize; lia) (ho _ (.inl ⟨_,rfl⟩)).1
      (ho _ (hr1.next (.inl rfl)).1.node).2,put_put] at hcarve
    dsimp only
    rw [htag,hmem]
    exact hcarve
  · dsimp only
    rw [put_ne hwa,hkeep w hw hno]

/-- A block in use has another size, and keeps what was in its first `k` bytes. The other blocks in use
are there. If it is not too small, the heap is one. -/
structure Resizes (tlsf : ℕ) (P : List Arena) (B : Layout) (t t' : Tlsf) (a k s : ℕ) : Prop where
  own : mbSize t'.mem a = s
  others : ∀ c u, InUse B c u → c ≠ a → mbSize t'.mem c = u
  held : ∀ w, a < w → w < a + k → t'.mem w = t.mem w
  heap : 32 ≤ s → ∃ B' F', Seg tlsf P B' (fun _ => False) t' F' ∧ ∀ c u, InUse B' c u ↔ c ≠ a ∧ InUse B c u ∨ c = a ∧ u = s

theorem Resizes.same (g : Seg tlsf P B (fun _ => False) t F) (hu : InUse B a n) (k : ℕ) : Resizes tlsf P B t t a k n :=
  ⟨g.heap.inUse_size hu,fun _ _ hc _ => g.heap.inUse_size hc,fun _ _ _ => rfl,fun _ => ⟨B,F,g,fun _ _ => hu.self_iff⟩⟩

theorem Resizes.carve {B1 : Layout} (h : Heap clsOf (tlsfHeads tlsf) P B1 (· = a) (put M a (tag ⟨n,.used,v⟩)) F)
    (ha : B1 a = some ⟨n,.used,v⟩) (hkn : k < n) (hown : mbSize t'.mem a = k)
    (hfar : ∀ w, Outside (tlsfHeads tlsf) F w → w ≠ a → ¬(a + k ≤ w ∧ w < a + n) → t'.mem w = M w)
    (hseg : 32 ≤ k → Seg tlsf P (update (update B1 (a + k) (some ⟨n - k,.free,true⟩)) a (some ⟨k,.used,v⟩)) (fun _ => False) t'
      (update F (entry (a + k)) (some (some (clsOf (n - k)))))) (h8 : 0 < k)
    (huse : ∀ c u, c ≠ a → (InUse B1 c u ↔ InUse B c u)) (hheld : ∀ w, a < w → w < a + k → M w = t.mem w) :
    Resizes tlsf P B t t' a k k := by
  refine ⟨hown,fun c u hc hca => ?_,fun w h1 h2 => ?_,fun hk => ⟨_,_,hseg hk,fun c u => ?_⟩⟩
  · have hu1 := (huse c u hca).2 hc
    have hmb := h.inUse_size hu1
    rw [mbSize,put_ne hca] at hmb
    obtain ⟨x,hx,-,rfl⟩ := hu1
    have hno : ¬(a + k ≤ c ∧ c < a + n) := fun hin => hca
      (h.tiled.unique hx ha (Nat.le_refl c) (Nat.lt_add_of_pos_right (h.tiled.pos hx)) (by omega) hin.2).1
    rw [mbSize,hfar c (h.outside_tag hx) hca hno]
    exact hmb
  · rw [hfar w (h.outside ha (by omega) (by dsimp only; omega) (by rintro ⟨⟩)) (by omega) (by omega),hheld w h1 h2]
  · rw [inUse_update,inUse_update]
    constructor
    · rintro (⟨hca,-,hs⟩ | ⟨hca,⟨-,hk,-⟩ | ⟨-,hu⟩⟩)
      · exact .inr ⟨hca,hs.symm⟩
      · cases hk
      · exact .inl ⟨hca,(huse c u hca).1 hu⟩
    · rintro (⟨hca,hu⟩ | ⟨hca,hs⟩)
      · have hu1 := (huse c u hca).2 hu
        exact .inr ⟨hca,.inr ⟨hu1.apart h.tiled ha (fun he => absurd he hca) (by omega) (by dsimp only; omega),hu1⟩⟩
      · exact .inl ⟨hca,rfl,hs.symm⟩

/-- `tlsf_shrink_blk` cuts. -/
def Cuts (t : Tlsf) (mb sz : ℕ) : Prop :=
  let delta := mbSize t.mem mb - sz
  tlsfMinsz ≤ delta ∧ (t.mem (mb + mbSize t.mem mb) &&& allocBit = 0 ∨ minAllocShrink ≤ delta)

theorem tlsfShrinkBlk_spec (g : Seg tlsf P B (fun _ => False) t F) (hu : InUse B a n) (h8 : 8 ∣ k) (h16 : 16 ≤ k) (hkn : k ≤ n) :
    ∃ t' s, tlsfShrinkBlk t a k = some t' ∧ (Cuts t a k → s = k) ∧ (¬Cuts t a k → s = n) ∧ Resizes tlsf P B t t' a k s := by
  have hself := Resizes.same g hu k
  obtain ⟨⟨n,kind,v⟩,ha,rfl,rfl⟩ := hu
  have hself : Resizes tlsf P B t t a k n := hself
  have hkn : k ≤ n := hkn
  have hlt : n < 2 ^ 31 := g.lt ha nofun
  have hn8 : 8 ∣ n := g.heap.eights ha
  have hsize : mbSize t.mem a = n := g.heap.mbSize ha nofun
  obtain ⟨y,hy⟩ := g.heap.tiled.next ha nofun
  have hy : B (a + n) = some y := hy
  have hout : ∀ w, a ≤ w → w < a + n → Outside (tlsfHeads tlsf) F w := fun w h1 h2 => g.heap.outside ha h1 h2 nofun
  have hdelta : diff (mbSize t.mem a) k / unitsize * unitsize = n - k := by
    rw [hsize,diff_of_le hkn (by lia)]
    exact Nat.div_mul_cancel (Nat.dvd_sub hn8 h8)
  have hcuts : Cuts t a k ↔ tlsfMinsz ≤ n - k ∧ (t.mem (a + n) &&& allocBit = 0 ∨ minAllocShrink ≤ n - k) := by
    rw [← hsize]
    exact Iff.rfl
  rw [hcuts,tlsfShrinkBlk]
  dsimp only
  rw [hdelta]
  simp only [hsize]
  by_cases hsmall : n - k < tlsfMinsz
  · rw [if_pos hsmall]
    exact ⟨t,n,rfl,fun h => absurd h.1 (Nat.not_le.2 hsmall),fun _ => rfl,hself⟩
  have h32 : 32 ≤ n - k := Nat.not_lt.1 hsmall
  rw [if_neg hsmall]
  by_cases hf : y.kind = .free
  · have hyf : y.kind ≠ .fence := by rw [hf]; exact nofun
    obtain ⟨l,r,rfl⟩ : ∃ l r, y = ⟨l,.free,r⟩ := ⟨y.size,y.prev,by rw [← hf]⟩
    obtain ⟨w,hw⟩ := g.heap.tiled.next hy hyf
    have hw : B (a + n + l) = some w := hw
    have hwp : w.prev = false := by
      have hafter := g.heap.after _ _ w hy hyf not_false hw
      cases hp : w.prev with
      | false => rfl
      | true => exact absurd (hafter.1 hp) nofun
    have hzero := (g.heap.alloc_zero hy).2 rfl
    have hlsize : mbSize t.mem (a + n) = l := g.heap.mbSize hy nofun
    have hposl : 32 ≤ l := g.heap.size hy nofun
    obtain ⟨t1,hrem,hmem,g1,hkeep1⟩ := g.rem (K := (· = a + n)) hy rfl not_false fun c => (false_or _).symm ▸ Iff.rfl
    have hone := g1.heap.annex ha hy
    have hself1 : update (update B (a + n) none) a (some (⟨n + l,.used,v⟩ : Blk)) a = some ⟨n + l,.used,v⟩ := update_self ..
    have htag : t1.mem a &&& ctlbmask = flags ⟨n + l,.used,v⟩ := by
      rw [hkeep1 a (hout a (Nat.le_refl a) (by lia)),g.heap.tags a _ ha,tag_flags hn8]
      rfl
    obtain ⟨t2,hcall,hown,hseg,hfar⟩ := tlsfCarve_spec (t := t1) (k := k) hone g1.maps g.small hself1 htag (y := w)
      (by rw [update_of_ne (by lia),update_of_ne (by lia),← Nat.add_assoc]; exact hw) hwp h8 h16 (by lia)
    rw [if_pos hzero,hlsize,hrem,Option.bind_some,show a + n - (n - k) = a + k by lia,show l + (n - k) = n + l - k by lia,hcall]
    refine ⟨t2,k,rfl,fun _ => rfl,fun h => absurd ⟨h32,.inl hzero⟩ h,?_⟩
    refine .carve hone hself1 (by lia) hown hfar hseg (by lia) (fun c u hca => ?_) fun w h1 h2 => hkeep1 w (hout w (by lia) (by lia))
    rw [inUse_update,inUse_remove]
    constructor
    · rintro (⟨he,-⟩ | ⟨-,-,hu⟩)
      · exact absurd he hca
      · exact hu
    · exact fun hu => .inr ⟨hca,hu.apart g.heap.tiled hy (fun _ => nofun) (Nat.le_refl _) (by dsimp only; lia),hu⟩
  · have hzero : t.mem (a + n) &&& allocBit ≠ 0 := fun h0 => hf ((g.heap.alloc_zero hy).1 h0)
    rw [if_neg hzero]
    by_cases hless : n - k < minAllocShrink
    · rw [if_pos hless]
      exact ⟨t,n,rfl,fun h => h.2.elim (fun h => absurd h hzero) fun h => absurd hless (Nat.not_lt.2 h),fun _ => rfl,hself⟩
    · have hhole := g.heap.unuse (K := (· = a)) ha rfl fun c => (false_or _).symm ▸ Iff.rfl
      have hmark := hhole.mark (z := { y with prev := false }) ha rfl hy (fun he => absurd he hf) rfl rfl
      have hposy := g.heap.tiled.pos hy
      dsimp only at hmark
      obtain ⟨M,hM⟩ : ∃ M, put t.mem (a + n) (tag { y with prev := false }) = M := ⟨_,rfl⟩
      rw [hM] at hmark
      have hMa : M a = tag ⟨n,.used,v⟩ := by rw [← hM,put_ne (by lia),g.heap.tags a _ ha]
      have hput : put M a (tag ⟨n,.used,v⟩) = M := by rw [← hMa]; exact update_eq_self a M
      have hself1 : update B (a + n) (some { y with prev := false }) a = some ⟨n,.used,v⟩ := by rw [update_of_ne (by lia)]; exact ha
      have htag : M a &&& ctlbmask = flags ⟨n,.used,v⟩ := by rw [hMa,tag_flags hn8]
      rw [← hput] at hmark
      obtain ⟨t2,hcall,hown,hseg,hfar⟩ := tlsfCarve_spec (t := t) (k := k) hmark g.maps g.small hself1 htag
        (y := { y with prev := false }) (update_self ..) rfl h8 h16 (by lia)
      rw [if_neg hless,g.heap.tags _ _ hy,tag_clear_prev (g.heap.eights hy) (g.heap.lt hy).2,hM,hcall]
      refine ⟨t2,k,rfl,fun _ => rfl,fun h => absurd ⟨h32,.inr (Nat.not_lt.1 hless)⟩ h,?_⟩
      refine .carve hmark hself1 (by lia) hown hfar hseg (by lia) (fun c u _ => inUse_mark hy false) fun w h1 h2 => ?_
      rw [← hM,put_ne (by lia)]

/-! ## Joining the next block on -/

theorem tlsfGrowBlk_spec (g : Seg tlsf P B (fun _ => False) t F) (hu : InUse B a n) (hzero : t.mem (a + n) &&& allocBit = 0) (h8 : 8 ∣ k)
    (hk : 8 ≤ k) (hfit : k ≤ mbSize t.mem (a + n)) : ∃ t' B' F' s, tlsfGrowBlk t a (a + n) k = some (a + 8,t') ∧
      Seg tlsf P B' (fun _ => False) t' F' ∧ n + k ≤ s ∧ (∀ c u, InUse B' c u ↔ c ≠ a ∧ InUse B c u ∨ c = a ∧ u = s) ∧
      ∀ w, a < w → w < a + n → t'.mem w = t.mem w := by
  obtain ⟨⟨n,kind,v⟩,ha,rfl,rfl⟩ := hu
  dsimp only at hzero hfit ⊢
  have hn8 : 8 ∣ n := g.heap.eights ha
  have hposn : 32 ≤ n := g.heap.size ha (by rintro ⟨⟩)
  obtain ⟨y,hy⟩ := g.heap.tiled.next ha (by rintro ⟨⟩)
  have hy : B (a + n) = some y := hy
  have hf : y.kind = .free := (g.heap.alloc_zero hy).1 hzero
  obtain ⟨l,rfl⟩ : ∃ l, y = ⟨l,.free,true⟩ := ⟨y.size,by rw [← hf,← g.heap.alone _ y hy hf not_false]⟩
  obtain ⟨w,hw⟩ := g.heap.tiled.next hy (by rintro ⟨⟩)
  have hw : B (a + n + l) = some w := hw
  have hl8 : 8 ∣ l := g.heap.eights hy
  have hlt : l < 2 ^ 31 := g.lt hy (by rintro ⟨⟩)
  have hsize : mbSize t.mem (a + n) = l := g.heap.mbSize hy (by rintro ⟨⟩)
  have hout : ∀ w, a ≤ w → w < a + n → Outside (tlsfHeads tlsf) F w := fun w h1 h2 => g.heap.outside ha h1 h2 (by rintro ⟨⟩)
  obtain ⟨t0,hrem,hmem0,g0,hkeep0⟩ := g.rem (K := (· = a + n)) hy rfl not_false fun c => (false_or _).symm ▸ Iff.rfl
  rw [hsize] at hfit
  rw [tlsfGrowBlk]
  dsimp only
  rw [hsize]
  by_cases hcut : l > k + tlsfMinsz
  · have hkl : k + 32 ≤ l := Nat.le_of_lt hcut
    obtain ⟨t1,hsplit,hmem,hmaps,hkeep⟩ := splitBlk_mem g hy h8 hk hkl
    have hwp : w.prev = false := by
      have hafter := g.heap.after _ _ w hy (by rintro ⟨⟩) not_false hw
      cases hp : w.prev with
      | false => rfl
      | true => exact absurd (hafter.1 hp) (by rintro ⟨⟩)
    obtain ⟨hheap,-,huse⟩ := g0.heap.recut (k := n + k) ha hy hw hwp (Nat.dvd_add hn8 h8) (by lia) (by lia) (.inl rfl)
    rw [show a + (n + k) = a + n + k by lia,show n + l - (n + k) = l - k by lia,hmem0] at hheap
    rw [show a + (n + k) = a + n + k by lia,show n + l - (n + k) = l - k by lia] at huse
    -- the cut also writes the tag and the last word of the part that is joined on
    obtain ⟨S,hS⟩ : ∃ S, setFreeMb (unlink t.mem (entry (a + n))) (a + n + k) (l - k) prevAllocBit = S := ⟨_,rfl⟩
    have hin : ∀ w, a + n ≤ w → w < a + n + l → Outside (tlsfHeads tlsf) (update F (entry (a + n)) none) w := fun w h1 h2 =>
      g0.heap.outside hy h1 h2 fun _ hn => absurd rfl hn
    have hrS : Rings S (tlsfHeads tlsf) (update F (entry (a + n)) none) := by
      have hr0 := g0.heap.rings
      rw [hmem0] at hr0
      rw [← hS]
      exact hr0.setFreeMb (hin _ (by lia) (by lia)) (hin _ (by lia) (by lia)) _
    have hnode := (hrS.next (p := tlsfHeads tlsf (some (clsOf (l - k)))) (i := some (clsOf (l - k))) (.inl rfl)).1.node
    have hhead : Node (tlsfHeads tlsf) (update F (entry (a + n)) none) (tlsfHeads tlsf (some (clsOf (l - k)))) := .inl ⟨_,rfl⟩
    have hc := hin (a + n) (Nat.le_refl _) (by lia)
    have hc' := hin (a + n + k - 8) (by lia) (by lia)
    have hmem1 : t1.mem = put (put (link S (tlsfHeads tlsf (some (clsOf (l - k)))) (entry (a + n + k))) (a + n) (k ||| prevAllocBit))
        (a + n + k - 8) k := by
      rw [hmem,hS,setFreeMb,show a + n + k - unitsize = a + n + k - 8 from rfl,link_put (by unfold entry; lia) (by unfold entry; lia)
        (hc' _ hhead).1 (by rw [put_ne (hc _ hhead).1.symm]; exact (hc' _ hnode).2),link_put (by unfold entry; lia)
        (by unfold entry; lia) (hc _ hhead).1 (hc _ hnode).2]
    have hmb : mbSize t1.mem (a + n) = k := by
      rw [hmem,hS,mbSize,link_frame (by unfold entry unitsize; lia) (by unfold entry unitsize; lia) (hc _ hhead).1 ?_,← mbSize]
      · exact mbSize_setFreeMb h8 hk (by lia)
      · rw [setFreeMb_frame (hc _ hhead).1.symm (hc' _ hhead).1.symm]
        exact (hc _ hnode).2
    have hta : t1.mem a = tag ⟨n,.used,v⟩ := by
      rw [hkeep a (hout a (Nat.le_refl a) (by lia)) (by lia),g.heap.tags a _ ha]
    have hta' : t1.mem a + k = tag ⟨n + k,.used,v⟩ := by
      rw [hta]
      simp only [tag,reduceCtorEq,if_false]
      lia
    have hself : update (update (update (update B (a + n) none) a (some ⟨n + l,.used,v⟩)) (a + n + k) (some ⟨l - k,.free,true⟩)) a
        (some (⟨n + k,.used,v⟩ : Blk)) a = some ⟨n + k,.used,v⟩ := update_self ..
    have hheap1 := (hheap.scribble hself (by rintro ⟨⟩) (w := a + n) (by lia) (by dsimp only; lia) (k ||| prevAllocBit)).scribble hself (by rintro ⟨⟩)
      (w := a + n + k - 8) (by lia) (by dsimp only; lia) k
    rw [hS,put_comm (a := a) (b := a + n) (by lia),put_comm (a := a) (by lia),← hmem1] at hheap1
    have hrest : t1.mem (a + n + k) = tag ⟨l - k,.free,true⟩ := by
      have htag := hheap1.tags (a + n + k) ⟨l - k,.free,true⟩ (by rw [update_of_ne (by lia),update_self])
      rwa [put_ne (by lia)] at htag
    have hsame : put t1.mem (a + n + k) (t1.mem (a + n + k) ||| prevAllocBit) = t1.mem := by
      have hor : t1.mem (a + n + k) ||| prevAllocBit = t1.mem (a + n + k) := by
        rw [hrest]
        exact tag_or_prev (x := ⟨l - k,.free,true⟩) (Nat.dvd_sub hl8 h8)
      rw [hor]
      exact update_eq_self _ _
    rw [if_pos hcut,hsplit,Option.map_some,hmb,hsame,hmb,hta']
    refine ⟨_,_,_,n + k,rfl,⟨hheap1,hmaps.mem _,g.small⟩,Nat.le_refl _,huse,fun w h1 h2 => ?_⟩
    dsimp only
    rw [put_ne (by lia),hkeep w (hout w (by lia) h2) (by lia)]
  · obtain ⟨hheap,huse⟩ := g0.heap.absorb ha hy hw
    have hlsize : mbSize t0.mem (a + n) = l := g0.heap.mbSize hy (by rintro ⟨⟩)
    have hposl : 32 ≤ l := g.heap.size hy (by rintro ⟨⟩)
    rw [if_neg hcut,hrem,Option.map_some,hlsize,mbSize,put_ne (by lia),put_ne (by lia),← mbSize,hlsize]
    refine ⟨_,_,_,n + l,rfl,⟨hheap,g0.maps.mem _,g.small⟩,by lia,huse,fun w h1 h2 => ?_⟩
    dsimp only
    rw [put_ne (by lia),put_ne (by lia),hkeep0 w (hout w (by lia) h2)]

/-! ## Any number of searches -/

/-- The answers that `add_mem_func` gives from some call on, if it is set. -/
def Supplied (tlsf : ℕ) (P : List Arena) (addMem : Option (ℕ → ℕ → ℕ)) (len i : ℕ) : Prop :=
  ∀ f, addMem = some f → Supply tlsf P len (fun j => f j len) i

/-- A pool of the heap, or one that was brought in. -/
def PoolOf (P : List Arena) (addMem : Option (ℕ → ℕ → ℕ)) (len : ℕ) (r : Arena) : Prop :=
  r ∈ P ∨ ∃ f j, addMem = some f ∧ f j len ≠ 0 ∧ r = tlsfArena (f j len) len

/-- `add_mem_func` gives a region first and none some time. -/
def Dries (addMem : Option (ℕ → ℕ → ℕ)) (len i : ℕ) : Prop := ∃ f, addMem = some f ∧ f i len ≠ 0 ∧ ∃ j, i < j ∧ f j len = 0

theorem tlsfAgain_spec (g : Seg tlsf P B (fun _ => False) t F) (h8 : 8 ∣ amt) (h32 : 32 ≤ amt) (hlt : amt < 2 ^ 30 + 128) (hle : amt ≤ c.lower)
    (hsup : Supplied tlsf P addMem (moreAmt amt) i) (hcall : tlsfAgain addMem amt c.index n i t = some (p,t')) :
    (p = 0 ∧ (∀ d : Cls, c.index ≤ d.index → ¬Filled F d) ∧ (t' = t ∧ (∀ f, addMem = some f → f i (moreAmt amt) = 0) ∨
        ¬c.index ≤ (clsOf (max amt 8144)).index ∧ Dries addMem (moreAmt amt) i)) ∨
      ∃ a k P' B' F', p = a + 8 ∧ Seg tlsf P' B' (fun _ => False) t' F' ∧ amt ≤ k ∧ Gives B B' t.mem t'.mem a k ∧
        ∀ r ∈ P', PoolOf P addMem (moreAmt amt) r := by
  induction n generalizing P B F t i with
  | zero => cases hcall
  | succ n ih =>
    by_cases hfound : ∃ d : Cls, c.index ≤ d.index ∧ Filled F d
    · obtain ⟨d,hcd,hd⟩ := hfound
      obtain ⟨a,k,t1,B1,F1,hcall1,g1,hk,hgives⟩ := tlsfAgain_found g h8 h32 hle hd hcd addMem n i
      cases hcall1.symm.trans hcall
      exact .inr ⟨a,k,P,B1,F1,rfl,g1,hk,hgives,fun r hr => .inl hr⟩
    · have hno : ∀ d : Cls, c.index ≤ d.index → ¬Filled F d := fun d hcd hd => hfound ⟨d,hcd,hd⟩
      cases addMem with
      | none =>
        rcases tlsfAgain_none g h8 h32 hle n i with hnull | ⟨a,k,t1,B1,F1,hcall1,g1,hk,hgives⟩
        · cases hnull.symm.trans hcall
          exact .inl ⟨rfl,hno,.inl ⟨rfl,nofun⟩⟩
        · cases hcall1.symm.trans hcall
          exact .inr ⟨a,k,P,B1,F1,rfl,g1,hk,hgives,fun r hr => .inl hr⟩
      | some f =>
        by_cases hf : f i (moreAmt amt) = 0
        · rw [tlsfAgain_dry g f hno hf n] at hcall
          cases hcall
          exact .inl ⟨rfl,hno,.inl ⟨rfl,fun f' hf' => Option.some.inj hf' ▸ hf⟩⟩
        · have hsupf := hsup f rfl
          obtain ⟨t1,B1,F1,hadd,g1,huse,hheld,hfill⟩ := tlsfAgain_add g f h8 hlt hno hf (hsupf.fresh i (Nat.le_refl i) hf) n
          rw [hadd] at hcall
          have hsup1 : Supplied tlsf (tlsfArena (f i (moreAmt amt)) (moreAmt amt) :: P) (some f) (moreAmt amt) (i + 1) := by
            intro f' hf'
            cases hf'
            exact hsupf.next hf (by have := (moreAmt_spec h8 hlt).1; omega)
          rcases ih g1 hsup1 hcall with ⟨rfl,hno1,hnull⟩ | ⟨a,k,P',B',F',rfl,g',hk,hgives,hpools⟩
          · refine .inl ⟨rfl,hno,.inr ⟨fun hc => hno1 _ hc ((hfill _).2 (.inr rfl)),f,rfl,hf,?_⟩⟩
            rcases hnull with ⟨-,hzero⟩ | ⟨-,f',hf',-,j,hj,hzero⟩
            · exact ⟨i + 1,Nat.lt_succ_self i,hzero f rfl⟩
            · cases hf'
              exact ⟨j,by omega,hzero⟩
          · refine .inr ⟨a,k,P',B',F',rfl,g',hk,⟨fun s hu => hgives.new s ((huse a s).2 hu),fun b s => ?_,fun b s w hu h1 h2 => ?_⟩,
              fun r hr => ?_⟩
            · rw [hgives.used,huse]
            · rw [hgives.held b s w ((huse b s).2 hu) h1 h2,hheld b s w hu h1 h2]
            · rcases hpools r hr with hmem | h
              · rcases List.mem_cons.1 hmem with rfl | hmem
                · exact .inr ⟨f,i,rfl,hf,rfl⟩
                · exact .inl hmem
              · exact .inr h

theorem tlsfAgain_starves (g : Seg tlsf P B (fun _ => False) t F) (h8 : 8 ∣ amt) (hlt : amt < 2 ^ 30 + 128)
    (hsup : Supply tlsf P (moreAmt amt) (fun j => f j (moreAmt amt)) i) (hno : ∀ d : Cls, c.index ≤ d.index → ¬Filled F d)
    (hmiss : ¬c.index ≤ (clsOf (max amt 8144)).index) (hpos : ∀ j < n, f (i + j) (moreAmt amt) ≠ 0) (hzero : f (i + n) (moreAmt amt) = 0) :
    ∃ t' P' B' F', tlsfAgain (some f) amt c.index (n + 1) i t = some (0,t') ∧ Seg tlsf P' B' (fun _ => False) t' F' ∧ (∀ r ∈ P, r ∈ P') ∧
      (0 < n → tlsfArena (f i (moreAmt amt)) (moreAmt amt) ∈ P') := by
  induction n generalizing P B F t i with
  | zero => exact ⟨t,P,B,F,tlsfAgain_dry g f hno hzero 0,g,fun r hr => hr,nofun⟩
  | succ n ih =>
    have hf : f i (moreAmt amt) ≠ 0 := hpos 0 (Nat.succ_pos n)
    obtain ⟨t1,B1,F1,hadd,g1,-,-,hfill⟩ := tlsfAgain_add g f h8 hlt hno hf (hsup.fresh i (Nat.le_refl i) hf) (n + 1)
    have hno1 : ∀ d : Cls, c.index ≤ d.index → ¬Filled F1 d := by
      intro d hcd hd
      rcases (hfill d).1 hd with h | rfl
      · exact hno d hcd h
      · exact hmiss hcd
    obtain ⟨t',P',B',F',hcall,g',hpools,-⟩ := ih g1 (hsup.next hf (by have := (moreAmt_spec h8 hlt).1; omega)) hno1
      (fun j hj => by have := hpos (j + 1) (by omega); rwa [Nat.add_assoc,Nat.add_comm 1]) (by rwa [Nat.add_assoc,Nat.add_comm 1])
    exact ⟨t',P',B',F',hadd.trans hcall,g',fun r hr => hpools r (List.mem_cons_of_mem _ hr),fun _ => hpools _ List.mem_cons_self⟩

/-! ## A new block -/

theorem Seg.client {m : Mem} (g : Seg tlsf P B (fun _ => False) t F) (hm : ∀ w, m w ≠ t.mem w → ∃ a n, InUse B a n ∧ a < w ∧ w < a + n) :
    Seg tlsf P B (fun _ => False) { t with mem := m } F := by
  refine ⟨g.heap.client fun w hw => ?_,g.maps.mem m,g.small⟩
  obtain ⟨a,n,⟨x,ha,hk,rfl⟩,h1,h2⟩ := hm w hw
  exact ⟨a,x,ha,hk,h1,h2⟩

theorem tlsfCopy_spec {B1 : Layout} {t1 : Tlsf} {F1 : ℕ → Option (Option Cls)} (g1 : Seg tlsf Q B1 (fun _ => False) t1 F1)
    (hgives : Gives B B1 M t1.mem b s) (hu : InUse B a n) (hns : n ≤ s) :
    ∃ t' B' F', tlsfFree { t1 with mem := memcpy t1.mem (b + 8) (a + 8) (n - 8) } (a + 8) = some t' ∧
      Seg tlsf Q B' (fun _ => False) t' F' ∧ (∀ c u, InUse B' c u ↔ c ≠ a ∧ InUse B c u ∨ c = b ∧ u = s) ∧
      (b ≠ a → ∀ u, ¬InUse B b u) ∧ ∀ w < n - 8, t'.mem (b + 8 + w) = M (a + 8 + w) := by
  have hu1 : InUse B1 a n := (hgives.used a n).2 (.inl hu)
  have hub : InUse B1 b s := (hgives.used b s).2 (.inr ⟨rfl,rfl⟩)
  have hba : b ≠ a := by
    rintro rfl
    exact hgives.new n hu
  have g2 : Seg tlsf Q B1 (fun _ => False) { t1 with mem := memcpy t1.mem (b + 8) (a + 8) (n - 8) } F1 := by
    refine g1.client fun w hw => ⟨b,s,hub,?_⟩
    rw [memcpy] at hw
    by_cases hin : b + 8 ≤ w ∧ w < b + 8 + (n - 8)
    · omega
    · rw [if_neg hin] at hw
      exact absurd rfl hw
  obtain ⟨t',B',F',hfree,g',hkeep⟩ := tlsfFree_spec g2 hu1
  refine ⟨t',B',F',hfree,g',fun c u => ?_,fun _ => hgives.new,fun w hw => ?_⟩
  · rw [hkeep.used,hgives.used]
    constructor
    · rintro ⟨h | h,hca⟩
      · exact .inl ⟨hca,h⟩
      · exact .inr h
    · rintro (⟨hca,h⟩ | h)
      · exact ⟨.inl h,hca⟩
      · exact ⟨.inr h,by rw [h.1]; exact hba⟩
  · rw [hkeep.held b s _ hub hba (by omega) (by omega)]
    dsimp only
    rw [memcpy,if_pos (by omega),show a + 8 + (b + 8 + w - (b + 8)) = a + 8 + w by omega]
    exact hgives.held a n _ hu (by omega) (by omega)

/-! ## The call -/

/-- Neither the block nor the next one has room. -/
def Moves (t : Tlsf) (mb need : ℕ) : Prop :=
  let next := mb + mbSize t.mem mb
  mbSize t.mem mb < need ∧ ¬(t.mem next &&& allocBit = 0 ∧ need - mbSize t.mem mb ≤ mbSize t.mem next)

theorem need_spec (hlt : newamt < 2 ^ 30) (hk : round2u newamt + unitsize = k) : 8 ∣ k ∧ newamt + 8 ≤ k ∧ k < newamt + 16 := by
  obtain ⟨h1,h2,h3⟩ := round2u_spec (n := newamt) (by omega)
  have hunit : unitsize = 8 := rfl
  exact ⟨by rw [← hk]; exact Nat.dvd_add h3 (by decide),by omega,by omega⟩

theorem tlsfRealloc_eq (g : Seg tlsf P B (fun _ => False) t F) (hu : InUse B a n) (h0 : 0 < newamt) (hlt : newamt < 2 ^ 30)
    (hk : round2u newamt + unitsize = k) (addMem : Option (ℕ → ℕ → ℕ)) (i : ℕ) :
    (k ≤ n → tlsfRealloc addMem i t (a + 8) newamt = (tlsfShrinkBlk t a k).map (a + 8,·)) ∧
    (n < k → ¬Moves t a k → tlsfRealloc addMem i t (a + 8) newamt = tlsfGrowBlk t a (a + n) (k - n) ∧
      t.mem (a + n) &&& allocBit = 0 ∧ k - n ≤ mbSize t.mem (a + n)) ∧
    (Moves t a k → n < k ∧ tlsfRealloc addMem i t (a + 8) newamt = (tlsfMalloc addMem i t k).bind fun (nmem,t) =>
      if nmem = 0 then some (nmem,t) else (tlsfFree { t with mem := memcpy t.mem nmem (a + 8) (n - 8) } (a + 8)).map (nmem,·)) := by
  obtain ⟨⟨n,kind,v⟩,ha,rfl,rfl⟩ := hu
  dsimp only
  obtain ⟨hk8,h1,h2⟩ := need_spec hlt hk
  have hn8 : 8 ∣ n := g.heap.eights ha
  have hsize : mbSize t.mem a = n := g.heap.mbSize ha nofun
  have htag : t.mem a = n + (1 + if v then 2 else 0) := by
    rw [g.heap.tags a _ ha]
    simp only [tag, reduceCtorEq, if_false]
  have hle : t.mem a ≤ n + 3 := by
    rw [htag]
    split <;> lia
  have hge : n ≤ t.mem a := by rw [htag]; exact Nat.le_add_right _ _
  have hmax : maxAlloc - unitsize = 2 ^ 64 - 16 := by decide
  have hunit : unitsize = 8 := rfl
  have hcall : tlsfRealloc addMem i t (a + 8) newamt = if t.mem a ≥ k then (tlsfShrinkBlk t a k).map (a + 8,·)
      else if t.mem (a + n) &&& allocBit = 0 ∧ round2u (k - n) ≤ mbSize t.mem (a + n) then tlsfGrowBlk t a (a + n) (round2u (k - n))
      else (tlsfMalloc addMem i t k).bind fun (nmem,t) =>
        if nmem = 0 then some (nmem,t) else (tlsfFree { t with mem := memcpy t.mem nmem (a + 8) (n - 8) } (a + 8)).map (nmem,·) := by
    rw [tlsfRealloc,if_neg (by lia),if_neg (Nat.succ_ne_zero _)]
    dsimp only
    rw [if_neg (by lia),hk,show a + 8 - unitsize = a from rfl,hsize,hunit]
  have hround : n < k → round2u (k - n) = k - n := by
    intro hnk
    obtain ⟨h4,h5,h6⟩ := round2u_spec (n := k - n) (by lia)
    lia
  have hmoves : Moves t a k ↔ n < k ∧ ¬(t.mem (a + n) &&& allocBit = 0 ∧ k - n ≤ mbSize t.mem (a + n)) := by
    rw [Moves,hsize]
  refine ⟨fun hkn => ?_,fun hnk hno => ?_,fun hm => ?_⟩
  · rw [hcall,if_pos (by lia)]
  · have hgrow : t.mem (a + n) &&& allocBit = 0 ∧ k - n ≤ mbSize t.mem (a + n) := by
      by_contra hnot
      exact hno (hmoves.2 ⟨hnk,hnot⟩)
    rw [hcall,if_neg (by lia),hround hnk,if_pos hgrow]
    exact ⟨rfl,hgrow⟩
  · obtain ⟨hnk,hnot⟩ := hmoves.1 hm
    rw [hcall,if_neg (by lia),hround hnk,if_neg hnot]
    exact ⟨hnk,rfl⟩

/-- The block at `b` has room for the amount, lies in one pool and apart from the other blocks in use,
which are there, and starts with what the old one started with. -/
structure Reallocated (R : Arena → Prop) (B : Layout) (m m' : Mem) (a n newamt b s : ℕ) : Prop where
  size : mbSize m' b = s
  room : newamt + 8 ≤ s
  inside : ∃ r, R r ∧ r.start ≤ b ∧ b + s ≤ r.stop
  apart : ∀ c u, InUse B c u → c ≠ a → mbSize m' c = u ∧ (c + u ≤ b ∨ b + s ≤ c)
  bytes : ∀ w < min (n - 8) newamt, m' (b + 8 + w) = m (a + 8 + w)

theorem Seg.reallocated {R : Arena → Prop} (g : Seg tlsf Q B' (fun _ => False) t' F')
    (huse : ∀ c u, InUse B' c u ↔ c ≠ a ∧ InUse B c u ∨ c = b ∧ u = s) (hnew : b ≠ a → ∀ u, ¬InUse B b u) (hroom : newamt + 8 ≤ s)
    (hR : ∀ r ∈ Q, R r) (hbytes : ∀ w < min (n - 8) newamt, t'.mem (b + 8 + w) = M (a + 8 + w)) :
    Reallocated R B M t'.mem a n newamt b s := by
  have hb : InUse B' b s := (huse b s).2 (.inr ⟨rfl,rfl⟩)
  refine ⟨g.heap.inUse_size hb,hroom,?_,fun c u hc hca => ?_,hbytes⟩
  · obtain ⟨x,hx,hk,rfl⟩ := hb
    obtain ⟨r,hr,h1,-,h2⟩ := g.heap.tiled.arena hx
    exact ⟨r,hR r hr,h1,h2 (by rw [hk]; exact nofun)⟩
  · have hc' : InUse B' c u := (huse c u).2 (.inl ⟨hca,hc⟩)
    have hcb : c ≠ b := by
      rintro rfl
      exact hnew hca u hc
    exact ⟨g.heap.inUse_size hc',g.heap.tiled.inUse_apart hc' hb hcb⟩

theorem Resizes.reallocated {R : Arena → Prop} (h : Resizes tlsf P B t t' a k s) (ht : Tiled P B) (hu : InUse B a n) (hks : k ≤ s)
    (hsn : s ≤ n) (hroom : newamt + 8 ≤ k) (hR : ∀ r ∈ P, R r) : Reallocated R B t.mem t'.mem a n newamt a s := by
  refine ⟨h.own,hroom.trans hks,?_,fun c u hc hca => ⟨h.others c u hc hca,?_⟩,fun w hw => h.held _ (by omega) (by omega)⟩
  · obtain ⟨x,hx,hk,rfl⟩ := hu
    obtain ⟨r,hr,h1,-,h2⟩ := ht.arena hx
    have := h2 (by rw [hk]; exact nofun)
    exact ⟨r,hR r hr,h1,by omega⟩
  · exact (ht.inUse_apart hc hu hca).imp id fun h => by omega

theorem tlsfRealloc_spec (g : Seg tlsf P B (fun _ => False) t F) (hu : InUse B a n) (h0 : 0 < newamt) (hlt : newamt < 2 ^ 30)
    (hk : round2u newamt + unitsize = k) (hamt : tlsfAmount k = some amt) (hsup : Supplied tlsf P addMem (moreAmt amt) 0)
    (hgood : ¬(Moves t a k ∧ ¬Ample B amt ∧ ¬PoolFits amt ∧ Dries addMem (moreAmt amt) 0))
    (hcall : tlsfRealloc addMem i t (a + 8) newamt = some (q,t')) :
    (q = 0 ∧ t' = t) ∨ ∃ b s, q = b + 8 ∧ Reallocated (PoolOf P addMem (moreAmt amt)) B t.mem t'.mem a n newamt b s := by
  obtain ⟨hk8,hk1,hk2⟩ := need_spec hlt hk
  obtain ⟨hshrink,hgrow,hmove⟩ := tlsfRealloc_eq g hu h0 hlt hk addMem i
  by_cases hkn : k ≤ n
  · obtain ⟨t1,s,hcut,hs1,hs2,hres⟩ := tlsfShrinkBlk_spec g hu hk8 (by lia) hkn
    rw [hshrink hkn,hcut] at hcall
    cases hcall
    have hs : k ≤ s ∧ s ≤ n := by
      by_cases hc : Cuts t a k
      · rw [hs1 hc]
        exact ⟨Nat.le_refl k,hkn⟩
      · rw [hs2 hc]
        exact ⟨hkn,Nat.le_refl n⟩
    exact .inr ⟨a,s,rfl,hres.reallocated g.heap.tiled hu hs.1 hs.2 hk1 fun r hr => .inl hr⟩
  have hnk : n < k := not_le.1 hkn
  by_cases hm : Moves t a k
  · obtain ⟨amt',hamt',h8,h32,hge,hamtlt⟩ := tlsfAmount_spec (show k < 2 ^ 30 + 64 by lia)
    obtain rfl := Option.some.inj (hamt'.symm.trans hamt)
    obtain ⟨c,hc⟩ := startClass g.maps h8 h32 (by lia)
    rw [(hmove hm).2,tlsfMalloc_eq hamt hc] at hcall
    obtain ⟨⟨p,t1⟩,hmalloc,hrest⟩ := Option.bind_eq_some_iff.1 hcall
    rcases tlsfAgain_spec g h8 h32 hamtlt hc.enough hsup hmalloc with ⟨rfl,hno,⟨rfl,-⟩ | ⟨hmiss,hdry⟩⟩ |
      ⟨b,s,P',B1,F1,rfl,g1,hs,hgives,hpools⟩
    · dsimp only at hrest
      rw [if_pos rfl] at hrest
      cases hrest
      exact .inl ⟨rfl,rfl⟩
    · refine absurd ⟨hm,?_,?_,hdry⟩ hgood
      · rw [ample_iff g hc]
        rintro ⟨d,hcd,hd⟩
        exact hno d hcd hd
      · rwa [← poolFits_iff hc h32 (by lia)]
    · obtain ⟨t2,B2,F2,hfree,g2,huse,hnew,hbytes⟩ := tlsfCopy_spec g1 hgives hu (by lia)
      dsimp only at hrest
      rw [if_neg (Nat.succ_ne_zero _),hfree] at hrest
      cases hrest
      exact .inr ⟨b,s,rfl,g2.reallocated huse hnew (by lia) hpools fun w hw => hbytes w (by lia)⟩
  · obtain ⟨hgrowing,hzero,hfit⟩ := hgrow hnk hm
    have hn8 : 8 ∣ n := by
      obtain ⟨x,ha,-,rfl⟩ := hu
      exact g.heap.eights ha
    obtain ⟨t1,B1,F1,s,hcall1,g1,hs,huse,hheld⟩ := tlsfGrowBlk_spec g hu hzero (Nat.dvd_sub hk8 hn8) (by lia) hfit
    rw [hgrowing,hcall1] at hcall
    cases hcall
    exact .inr ⟨a,s,rfl,g1.reallocated huse (fun h => absurd rfl h) (by lia) (fun r hr => .inl hr) fun w hw => hheld _ (by lia) (by lia)⟩

theorem tlsfRealloc_vain (g : Seg tlsf P B (fun _ => False) t F) (hu : InUse B a n) (h0 : 0 < newamt) (hlt : newamt < 2 ^ 30)
    (hk : round2u newamt + unitsize = k) (hamt : tlsfAmount k = some amt) (hsup : Supplied tlsf P addMem (moreAmt amt) 0)
    (hm : Moves t a k) (hno : ¬Ample B amt) (hmiss : ¬PoolFits amt) (hdry : Dries addMem (moreAmt amt) 0) :
    ∃ i t', tlsfRealloc addMem i t (a + 8) newamt = some (0,t') ∧ t' ≠ t := by
  obtain ⟨hk8,hk1,hk2⟩ := need_spec hlt hk
  obtain ⟨amt',hamt',h8,h32,-,hamtlt⟩ := tlsfAmount_spec (show k < 2 ^ 30 + 64 by omega)
  obtain rfl := Option.some.inj (hamt'.symm.trans hamt)
  obtain ⟨c,hc⟩ := startClass g.maps h8 h32 (by omega)
  rw [ample_iff g hc] at hno
  rw [← poolFits_iff hc h32 (by omega)] at hmiss
  obtain ⟨f,rfl,hf0,hex⟩ := hdry
  obtain ⟨j,-,hj⟩ := hex
  -- the first answer that is null
  have hex : ∃ j, f j (moreAmt amt') = 0 := ⟨j,hj⟩
  obtain ⟨N,hN,hbefore⟩ : ∃ N, f N (moreAmt amt') = 0 ∧ ∀ j < N, f j (moreAmt amt') ≠ 0 := by
    classical
    exact ⟨Nat.find hex,Nat.find_spec hex,fun j hj => Nat.find_min hex hj⟩
  have hpos : 0 < N := Nat.pos_of_ne_zero fun h => hf0 (h ▸ hN)
  have hsupf := hsup f rfl
  obtain ⟨t',P',B',F',hcall,g',-,hpool⟩ := tlsfAgain_starves g h8 hamtlt hsupf (fun d hcd hd => hno ⟨d,hcd,hd⟩) hmiss
    (n := N) (by simpa only [Nat.zero_add] using hbefore) (by rwa [Nat.zero_add])
  refine ⟨N + 1,t',?_,?_⟩
  · rw [((tlsfRealloc_eq g hu h0 hlt hk (some f) (N + 1)).2.2 hm).2,tlsfMalloc_eq hamt hc,hcall]
    rfl
  · rintro rfl
    have hnew := (g'.heap.listed _ none).2 (.inl ⟨rfl,_,hpool hpos,rfl⟩)
    have hold := g'.heap.rings.same g.heap.rings hnew
    rcases (g.heap.listed _ _).1 hold with ⟨-,r,hr,heq⟩ | ⟨_,_,_,_,_,_,hlist⟩
    · have hfresh := (hsupf.fresh 0 (Nat.le_refl 0) hf0).apart r hr
      have horder := g.heap.tiled.order r hr
      have hmore := (moreAmt_spec h8 hamtlt).1
      change f 0 (moreAmt amt') = r.base at heq
      omega
    · cases hlist

/-- `tlsf_realloc` of a live block does what is asked if and only if it brings no pools in vain. -/
theorem tlsfRealloc_iff (g : Seg tlsf P B (fun _ => False) t F) (hu : InUse B a n) (h0 : 0 < newamt) (hlt : newamt < 2 ^ 30)
    (hamt : tlsfAmount (round2u newamt + unitsize) = some amt) (hsup : Supplied tlsf P addMem (moreAmt amt) 0) :
    (∀ searches q t', tlsfRealloc addMem searches t (a + 8) newamt = some (q,t') → (q = 0 → t' = t) ∧
      (q ≠ 0 → ∃ b s, q = b + 8 ∧ Reallocated (PoolOf P addMem (moreAmt amt)) B t.mem t'.mem a n newamt b s)) ↔
    ¬(Moves t a (round2u newamt + unitsize) ∧ ¬Ample B amt ∧ ¬PoolFits amt ∧ Dries addMem (moreAmt amt) 0) := by
  constructor
  · rintro hall ⟨hm,hno,hmiss,hdry⟩
    obtain ⟨i,t',hcall,hne⟩ := tlsfRealloc_vain g hu h0 hlt rfl hamt hsup hm hno hmiss hdry
    exact hne ((hall i 0 t' hcall).1 rfl)
  · intro hgood i q t' hcall
    rcases tlsfRealloc_spec g hu h0 hlt rfl hamt hsup hgood hcall with ⟨rfl,rfl⟩ | ⟨b,s,rfl,hre⟩
    · exact ⟨fun _ => rfl,fun h => absurd rfl h⟩
    · exact ⟨fun h => absurd h (Nat.succ_ne_zero _),fun _ => ⟨b,s,rfl,hre⟩⟩

theorem small_heap : ∃ t B F a n, Seg 8 [tlsfArena (2 ^ 20) 128] B (fun _ => False) t F ∧ InUse B a n := by
  obtain ⟨t1,B1,F1,-,g1,-,-,hfill⟩ := tlsfAddPool_spec (tlsfInit_spec (fun _ => 0) (show 0 < 8 by decide)) (by decide) (by decide)
    (fresh_empty (show 128 < 2 ^ 31 by decide))
  obtain ⟨c,hc⟩ := startClass g1.maps (show 8 ∣ 32 by decide) (by decide) (by decide)
  have hle : 32 ≤ (clsOf (128 / unitsize * unitsize - 48)).lower := by decide +kernel
  obtain ⟨a,k,t,B,F,-,g,-,hgives⟩ := tlsfAgain_found g1 (by decide) (Nat.le_refl 32) hc.enough ((hfill _).2 (.inr rfl)) (hc.le_iff.2 hle) none 0 0
  exact ⟨t,B,F,a,k,g,(hgives.used a k).2 (.inr ⟨rfl,rfl⟩)⟩

theorem tlsfRealloc_iff_8 : ∃ t B F a n, Seg 8 [tlsfArena (2 ^ 20) 128] B (fun _ => False) t F ∧ InUse B a n ∧
    ∀ searches q t', tlsfRealloc none searches t (a + 8) 8 = some (q,t') → (q = 0 → t' = t) ∧
      (q ≠ 0 → ∃ b s, q = b + 8 ∧ Reallocated (PoolOf [tlsfArena (2 ^ 20) 128] none (moreAmt 32)) B t.mem t'.mem a n 8 b s) := by
  obtain ⟨t,B,F,a,n,g,hu⟩ := small_heap
  have hsup : Supplied 8 [tlsfArena (2 ^ 20) 128] none (moreAmt 32) 0 := fun f hf => nomatch hf
  refine ⟨t,B,F,a,n,g,hu,(tlsfRealloc_iff g hu (by decide) (by decide) rfl hsup).2 ?_⟩
  rintro ⟨-,-,-,f,hf,-⟩
  cases hf

/-- The one pool that comes for 8120 bytes does not help, and no other does come. -/
theorem tlsfRealloc_vain_8120 : ¬∀ tlsf P B t F a n newamt amt (addMem : Option (ℕ → ℕ → ℕ)), Seg tlsf P B (fun _ => False) t F →
    InUse B a n → 0 < newamt → newamt < 2 ^ 30 → tlsfAmount (round2u newamt + unitsize) = some amt →
    Supplied tlsf P addMem (moreAmt amt) 0 → ∀ searches q t', tlsfRealloc addMem searches t (a + 8) newamt = some (q,t') →
      (q = 0 → t' = t) ∧ (q ≠ 0 → ∃ b s, q = b + 8 ∧ Reallocated (PoolOf P addMem (moreAmt amt)) B t.mem t'.mem a n newamt b s) := by
  intro h
  obtain ⟨t,B,F,a,n,g,hu⟩ := small_heap
  have hlen : moreAmt 8136 = 8192 := rfl
  have hsup : Supplied 8 [tlsfArena (2 ^ 20) 128] (some fun j _ => if j = 0 then 2 ^ 21 else 0) (moreAmt 8136) 0 := by
    intro f hf
    cases hf
    rw [hlen]
    refine ⟨fun j _ hj => ?_,fun i j _ hij _ hj => absurd (if_neg (by omega)) hj⟩
    obtain rfl : j = 0 := by
      by_contra h0
      exact hj (if_neg h0)
    refine ⟨by decide,by decide,by decide,List.forall_mem_singleton.2 (by decide),fun i => .inl ?_⟩
    have hsize : 8 + tlsfSize ≤ 2 ^ 21 := by decide
    exact (tlsfHeads_le 8 i).2.trans hsize
  -- no block is longer than the pool
  have hspan : ∀ c x, B c = some x → x.kind ≠ .fence → 2 ^ 20 + 40 ≤ c ∧ c + x.size ≤ 2 ^ 20 + 120 := by
    intro c x hc hk
    obtain ⟨r,hr,h1,-,h2⟩ := g.heap.tiled.arena hc
    obtain rfl := List.mem_singleton.1 hr
    exact ⟨h1,h2 hk⟩
  have hamt : tlsfAmount (round2u 8120 + unitsize) = some 8136 := by decide
  have hm : Moves t a 8128 := by
    obtain ⟨x,ha,hk,rfl⟩ := hu
    have hx : x.kind ≠ .fence := by rw [hk]; exact nofun
    have h1 := hspan a x ha hx
    rw [Moves,g.heap.mbSize ha hx]
    refine ⟨by omega,fun hnext => ?_⟩
    obtain ⟨y,hy⟩ := g.heap.tiled.next ha hx
    have hf := (g.heap.alloc_zero hy).1 hnext.1
    have hyf : y.kind ≠ .fence := by rw [hf]; exact nofun
    have h2 := hspan _ y hy hyf
    have h3 := hnext.2
    rw [g.heap.mbSize hy hyf] at h3
    omega
  have hno : ¬Ample B 8136 := by
    rintro ⟨c,x,hc,hk,hle⟩
    have hx : x.kind ≠ .fence := by rw [hk]; exact nofun
    have h1 := hspan c x hc hx
    have h32 := g.heap.size hc hx
    have h2 := (clsOf_range (n := x.size) (by omega) (by omega)).1
    omega
  have hmiss : ¬PoolFits 8136 := by
    rintro (h | h)
    · exact absurd h (by decide)
    · exact absurd h (by decide +kernel)
  obtain ⟨i,t',hcall,hne⟩ := tlsfRealloc_vain g hu (by decide) (by decide) (rfl : round2u 8120 + unitsize = 8128) hamt hsup hm hno hmiss
    ⟨_,rfl,by decide,1,by decide,rfl⟩
  exact hne ((h 8 _ B t F a n 8120 8136 _ g hu (by decide) (by decide) hamt hsup i 0 t' hcall).1 rfl)

end Catlib.Alloc
