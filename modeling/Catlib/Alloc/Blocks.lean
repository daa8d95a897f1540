import Catlib.Alloc.Rings
import Catlib.Alloc.Tiling
import Mathlib.Algebra.Group.Nat.Defs

/-! # Heaps of tagged blocks

Blocks tile their arenas. The first word of a block is its tag, a free one repeats its size in its
last word, and between the two it is a node on the ring of its size class. A hole is a block that
is on its way from one state to another: what its neighbours and the rings say of it does not
count.
-/
namespace Catlib.Alloc

open Function

variable {ι : Type*}

/-- The size, one for a block in use, and two where the block before is; a fence has no size. -/
def tag (x : Blk) : ℕ :=
  (if x.kind = .fence then 0 else x.size) + ((if x.kind = .free then 0 else 1) + if x.prev then 2 else 0)

/-- The blocks of a heap, its tags and its rings, but for the holes. Ring `none` is that of the
arenas, and `cls` gives the ring of a size. -/
structure Heap (cls : ℕ → ι) (head : Option ι → ℕ) (P : List Arena) (B : Layout) (H : ℕ → Prop) (m : Mem)
    (F : ℕ → Option (Option ι)) : Prop where
  tiled : Tiled P B
  fits : ∀ p ∈ P, p.stop + 8 ≤ 2 ^ 64
  heads : ∀ j, ∀ p ∈ P, head j + 16 ≤ p.base ∨ p.stop + 8 ≤ head j
  sized : ∀ a x, B a = some x → 8 ∣ a ∧ 8 ∣ x.size ∧ (x.kind ≠ .fence → 32 ≤ x.size)
  tags : ∀ a x, B a = some x → m a = tag x
  foot : ∀ a x, B a = some x → x.kind = .free → ¬H a → m (a + x.size - 8) = x.size
  after : ∀ a x y, B a = some x → x.kind ≠ .fence → ¬H a → B (a + x.size) = some y → (y.prev = true ↔ x.kind = .used)
  first : ∀ p ∈ P, ∀ x, B p.start = some x → x.prev = true
  alone : ∀ a x, B a = some x → x.kind = .free → ¬H a → x.prev = true
  rings : Rings m head F
  listed : ∀ n j, F n = some j ↔ (j = none ∧ ∃ p ∈ P, n = p.base) ∨
    ∃ a x, n = a + 8 ∧ B a = some x ∧ x.kind = .free ∧ ¬H a ∧ j = some (cls x.size)

variable {cls : ℕ → ι} {head : Option ι → ℕ} {P : List Arena} {B : Layout} {H K : ℕ → Prop} {m : Mem}
  {F : ℕ → Option (Option ι)} {a b c w v p : ℕ} {x y z : Blk}

namespace Heap

theorem size (h : Heap cls head P B H m F) (ha : B a = some x) (hk : x.kind ≠ .fence) : 32 ≤ x.size := (h.sized a x ha).2.2 hk

theorem span (h : Heap cls head P B H m F) (ha : B a = some x) : 8 ≤ x.size := by
  obtain ⟨-,⟨k,hk⟩,-⟩ := h.sized a x ha
  have := h.tiled.pos ha
  omega

theorem outside (h : Heap cls head P B H m F) (ha : B a = some x) (hw : a ≤ w) (hw' : w < a + x.size)
    (hself : x.kind = .free → ¬H a → w ≠ a + 8 ∧ w ≠ a + 16) : Outside head F w := by
  obtain ⟨p,hp,h1,h2,-⟩ := h.tiled.arena ha
  have ho := h.tiled.order p hp
  rintro n (⟨j,rfl⟩ | ⟨j,hj⟩)
  · rcases h.heads j p hp with h | h <;> lia
  · rcases (h.listed n j).1 hj with ⟨-,q,hq,rfl⟩ | ⟨b,y,rfl,hb,hk,hH,-⟩
    · have hoq := h.tiled.order q hq
      rcases h.tiled.arenas p hp q hq with rfl | h | h <;> lia
    · have hs := h.size hb (by rw [hk]; exact nofun)
      by_cases hab : a = b
      · subst hab
        cases ha.symm.trans hb
        have := hself hk hH
        lia
      · have hno : ∀ v, b ≤ v → v < b + y.size → w ≠ v := fun v h1 h2 he =>
          hab (h.tiled.unique ha hb hw hw' (he ▸ h1) (he ▸ h2)).1
        exact ⟨hno _ (by lia) (by lia),hno _ (by lia) (by lia)⟩

theorem outside_tag (h : Heap cls head P B H m F) (ha : B a = some x) : Outside head F a :=
  h.outside ha (Nat.le_refl a) (Nat.lt_add_of_pos_right (h.tiled.pos ha)) fun _ _ => ⟨by omega,by omega⟩

theorem outside_foot (h : Heap cls head P B H m F) (ha : B a = some x) (hk : x.kind = .free) : Outside head F (a + x.size - 8) := by
  have hs := h.size ha (by rw [hk]; exact nofun)
  exact h.outside ha (by omega) (by omega) fun _ _ => ⟨by omega,by omega⟩

theorem congr {m' : Mem} (h : Heap cls head P B H m F) (hnode : ∀ w, ¬Outside head F w → m' w = m w)
    (htag : ∀ a x, B a = some x → m' a = m a)
    (hfoot : ∀ a x, B a = some x → x.kind = .free → ¬H a → m' (a + x.size - 8) = m (a + x.size - 8)) :
    Heap cls head P B H m' F :=
  ⟨h.tiled,h.fits,h.heads,h.sized,fun a x ha => (htag a x ha).trans (h.tags a x ha),
    fun a x ha hk hH => (hfoot a x ha hk hH).trans (h.foot a x ha hk hH),h.after,h.first,h.alone,h.rings.congr hnode,h.listed⟩

theorem scribble (h : Heap cls head P B H m F) (ha : B a = some x) (hin : x.kind = .free → H a) (hw : a < w)
    (hw' : w < a + x.size) (v : ℕ) : Heap cls head P B H (put m w v) F := by
  have hout := h.outside ha (Nat.le_of_lt hw) hw' fun hk hH => absurd (hin hk) hH
  have hno : ∀ b y u, B b = some y → b ≠ a → b ≤ u → u < b + y.size → u ≠ w := by
    rintro b y u hb hne h1 h2 rfl
    exact hne (h.tiled.unique hb ha h1 h2 (Nat.le_of_lt hw) hw').1
  refine h.congr (fun u hu => put_ne fun e => hu (e ▸ hout)) (fun b y hb => put_ne ?_) (fun b y hb hk hH => put_ne ?_)
  · by_cases hba : b = a
    · omega
    · exact hno b y b hb hba (Nat.le_refl b) (Nat.lt_add_of_pos_right (h.tiled.pos hb))
  · have hs := h.size hb (by rw [hk]; exact nofun)
    by_cases hba : b = a
    · subst hba
      cases ha.symm.trans hb
      exact absurd (hin hk) hH
    · exact hno b y _ hb hba (by omega) (by omega)

theorem client {m' : Mem} (h : Heap cls head P B H m F)
    (hm : ∀ w, m' w ≠ m w → ∃ a x, B a = some x ∧ x.kind = .used ∧ a < w ∧ w < a + x.size) : Heap cls head P B H m' F := by
  have hkeep : ∀ w, (∀ a x, B a = some x → x.kind = .used → a < w → ¬w < a + x.size) → m' w = m w := by
    intro w hw
    by_contra hne
    obtain ⟨a,x,ha,hk,h1,h2⟩ := hm w hne
    exact hw a x ha hk h1 h2
  refine h.congr (fun w hw => hkeep w fun a x ha hk h1 h2 => hw ?_) (fun b y hb => hkeep b fun a x ha hk h1 h2 => ?_)
    (fun b y hb hk hH => hkeep _ fun a x ha hu h1 h2 => ?_)
  · exact h.outside ha (Nat.le_of_lt h1) h2 fun hf => by rw [hk] at hf; cases hf
  · have := (h.tiled.unique ha hb (Nat.le_of_lt h1) h2 (Nat.le_refl b) (Nat.lt_add_of_pos_right (h.tiled.pos hb))).1
    omega
  · have hs := h.size hb (by rw [hk]; exact nofun)
    obtain ⟨-,rfl⟩ := h.tiled.unique ha hb (Nat.le_of_lt h1) h2 (by omega) (by omega)
    rw [hk] at hu
    cases hu

/-! ## Holes -/

theorem retag (h : Heap cls head P B H m F) (ha : B a = some x) (hH : H a) (hs : z.size = x.size) (hp : z.prev = x.prev)
    (hx : x.kind ≠ .fence) (hz : z.kind ≠ .fence) : Heap cls head P (update B a (some z)) H (put m a (tag z)) F := by
  have hout := h.outside_tag ha
  have hold : ∀ b y, update B a (some z) b = some y → ¬H b → b ≠ a ∧ B b = some y := by
    intro b y hb hHb
    rcases update_some.1 hb with ⟨rfl,-⟩ | hb
    · exact absurd hH hHb
    · exact hb
  refine ⟨h.tiled.retag ha hs (iff_of_false hz hx),h.fits,h.heads,fun b y hb => ?_,fun b y hb => ?_,fun b y hb hk hHb => ?_,
    fun b y u hb hk hHb hu => ?_,fun q hq y hy => ?_,fun b y hb hk hHb => h.alone b y (hold b y hb hHb).2 hk hHb,h.rings.put hout _,
    fun n j => (h.listed n j).trans (or_congr_right ?_)⟩
  · rcases update_some.1 hb with ⟨rfl,rfl⟩ | ⟨-,hb⟩
    · rw [hs]
      have := h.sized b x ha
      exact ⟨this.1,this.2.1,fun _ => this.2.2 hx⟩
    · exact h.sized b y hb
  · rcases update_some.1 hb with ⟨rfl,rfl⟩ | ⟨hne,hb⟩
    · exact put_self _ _ _
    · rw [put_ne hne]
      exact h.tags b y hb
  · obtain ⟨hne,hb⟩ := hold b y hb hHb
    have hsize := h.size hb (by rw [hk]; exact nofun)
    rw [put_ne fun he => hne (h.tiled.unique hb ha (by omega) (by omega) (Nat.le_of_eq he.symm)
      (by rw [he]; exact Nat.lt_add_of_pos_right (h.tiled.pos ha))).1]
    exact h.foot b y hb hk hHb
  · obtain ⟨hne,hb'⟩ := hold b y hb hHb
    rcases update_some.1 hu with ⟨he,rfl⟩ | ⟨-,hu⟩
    · rw [hp]
      exact h.after b y x hb' hk hHb (he ▸ ha)
    · exact h.after b y u hb' hk hHb hu
  · rcases update_some.1 hy with ⟨he,rfl⟩ | ⟨-,hy⟩
    · rw [hp]
      exact h.first q hq x (he ▸ ha)
    · exact h.first q hq y hy
  · constructor
    · rintro ⟨b,y,rfl,hb,hk,hHb,rfl⟩
      exact ⟨b,y,rfl,update_some.2 (.inr ⟨fun he => hHb (he ▸ hH),hb⟩),hk,hHb,rfl⟩
    · rintro ⟨b,y,rfl,hb,hk,hHb,rfl⟩
      exact ⟨b,y,rfl,(hold b y hb hHb).2,hk,hHb,rfl⟩

theorem mark (h : Heap cls head P B H m F) (hb : B b = some y) (hHb : H b) (ha : B (b + y.size) = some x)
    (hv : x.kind = .free → ¬H (b + y.size) → z.prev = true) (hs : z.size = x.size) (hz : z.kind = x.kind) :
    Heap cls head P (update B (b + y.size) (some z)) H (put m (b + y.size) (tag z)) F := by
  obtain ⟨a,hab⟩ : ∃ a, a = b + y.size := ⟨_,rfl⟩
  rw [← hab] at ha hv ⊢
  have hout := h.outside_tag ha
  have hne : b ≠ a := by
    have := h.tiled.pos hb
    lia
  have hkind : z.kind = .fence ↔ x.kind = .fence := by rw [hz]
  have hold : ∀ c u, update B a (some z) c = some u → ∃ u', B c = some u' ∧ u'.size = u.size ∧ u'.kind = u.kind ∧
      (c ≠ a → u' = u) := by
    intro c u hc
    rcases update_some.1 hc with ⟨rfl,rfl⟩ | ⟨-,hc⟩
    · exact ⟨x,ha,hs.symm,hz.symm,fun h => absurd rfl h⟩
    · exact ⟨u,hc,rfl,rfl,fun _ => rfl⟩
  refine ⟨h.tiled.retag ha hs hkind,h.fits,h.heads,fun c u hc => ?_,fun c u hc => ?_,fun c u hc hk hHc => ?_,
    fun c u u' hc hk hHc hu => ?_,fun q hq u hu => ?_,fun c u hc hk hHc => ?_,h.rings.put hout _,
    fun n j => (h.listed n j).trans (or_congr_right ?_)⟩
  · obtain ⟨u',hu',hs',hk',-⟩ := hold c u hc
    rw [← hs',← hk']
    exact h.sized c u' hu'
  · rcases update_some.1 hc with ⟨rfl,rfl⟩ | ⟨hne,hc⟩
    · exact put_self _ _ _
    · rw [put_ne hne]
      exact h.tags c u hc
  · obtain ⟨u',hu',hs',hk',-⟩ := hold c u hc
    have hsize := h.size hu' (by rw [hk',hk]; exact nofun)
    rw [← hs',put_ne]
    · exact h.foot c u' hu' (hk'.trans hk) hHc
    · intro he
      obtain ⟨rfl,-⟩ := h.tiled.unique hu' ha (by lia) (by lia) (Nat.le_of_eq he.symm)
        (by rw [he]; exact Nat.lt_add_of_pos_right (h.tiled.pos ha))
      lia
  · obtain ⟨v',hv',hs',hk',-⟩ := hold c u hc
    obtain ⟨w',hw',-,-,hw⟩ := hold (c + u.size) u' hu
    by_cases hca : c + u.size = a
    · -- the block before it is the hole
      have hcb : c = b := by
        have hpos := h.tiled.pos hv'
        have hposb := h.tiled.pos hb
        exact (h.tiled.unique hv' hb (by lia) (by lia : a - 1 < _) (by lia) (by lia)).1
      exact absurd (hcb ▸ hHb) hHc
    · cases hw hca
      rw [← hk'] at hk ⊢
      exact h.after c v' _ hv' hk hHc (hs' ▸ hw')
  · obtain ⟨u',hu',-,-,hw⟩ := hold q.start u hu
    by_cases hqa : q.start = a
    · -- no block is before the first one
      obtain ⟨p,hp,h1,h2,-⟩ := h.tiled.arena hb
      have ho := h.tiled.order q hq
      have ho' := h.tiled.order p hp
      have hpos := h.tiled.pos hb
      obtain ⟨p',hp',h3,h4,-⟩ := h.tiled.arena ha
      rcases h.tiled.arenas p hp q hq with rfl | h | h
      · lia
      · lia
      · lia
    · cases hw hqa
      exact h.first q hq _ hu'
  · rcases update_some.1 hc with ⟨rfl,rfl⟩ | ⟨-,hc⟩
    · exact hv (hz ▸ hk) hHc
    · exact h.alone c u hc hk hHc
  · constructor
    · rintro ⟨c,u,rfl,hc,hk,hHc,rfl⟩
      by_cases hca : c = a
      · subst hca
        cases ha.symm.trans hc
        exact ⟨c,z,rfl,update_some.2 (.inl ⟨rfl,rfl⟩),hz.trans hk,hHc,by rw [hs]⟩
      · exact ⟨c,u,rfl,update_some.2 (.inr ⟨hca,hc⟩),hk,hHc,rfl⟩
    · rintro ⟨c,u,rfl,hc,hk,hHc,rfl⟩
      obtain ⟨u',hu',hs',hk',-⟩ := hold c u hc
      exact ⟨c,u',rfl,hu',hk'.trans hk,hHc,by rw [hs']⟩

theorem merge (h : Heap cls head P B H m F) (ha : B a = some x) (hH : H a) (hc : B (a + x.size) = some y)
    (hHc : H (a + x.size)) (hx : x.kind ≠ .fence) (hy : y.kind ≠ .fence) (hz : z.kind ≠ .fence)
    (hs : z.size = x.size + y.size) (hp : z.prev = x.prev) (hK : ∀ b, K b ↔ H b ∧ b ≠ a + x.size) :
    Heap cls head P (update (update B (a + x.size) none) a (some z)) K (put m a (tag z)) F := by
  have hout := h.outside_tag ha
  have hpos := h.tiled.pos ha
  have hold : ∀ b u, update (update B (a + x.size) none) a (some z) b = some u →
      b = a ∧ u = z ∨ b ≠ a ∧ b ≠ a + x.size ∧ B b = some u := by
    intro b u hb
    rwa [update_some,update_none] at hb
  have hfree : ∀ b u, update (update B (a + x.size) none) a (some z) b = some u → ¬K b → b ≠ a ∧ ¬H b ∧ B b = some u := by
    intro b u hb hHb
    rcases hold b u hb with ⟨rfl,-⟩ | ⟨h1,h2,h3⟩
    · exact absurd ((hK b).2 ⟨hH,by omega⟩) hHb
    · exact ⟨h1,fun hb => hHb ((hK b).2 ⟨hb,h2⟩),h3⟩
  refine ⟨h.tiled.merge ha hc hx hy hz hs,h.fits,h.heads,fun b u hb => ?_,fun b u hb => ?_,fun b u hb hk hHb => ?_,
    fun b u v hb hk hHb hv => ?_,fun q hq u hu => ?_,fun b u hb hk hHb => ?_,h.rings.put hout _,
    fun n j => (h.listed n j).trans (or_congr_right ?_)⟩
  · rcases hold b u hb with ⟨rfl,rfl⟩ | ⟨-,-,hb⟩
    · have h1 := h.sized _ x ha
      have h2 := h.sized _ y hc
      rw [hs]
      exact ⟨h1.1,(Nat.dvd_add h1.2.1 h2.2.1),fun _ => Nat.le_trans (h1.2.2 hx) (Nat.le_add_right _ _)⟩
    · exact h.sized b u hb
  · rcases hold b u hb with ⟨rfl,rfl⟩ | ⟨hne,-,hb⟩
    · exact put_self _ _ _
    · rw [put_ne hne]
      exact h.tags b u hb
  · obtain ⟨hne,hHb,hb⟩ := hfree b u hb hHb
    have hsize := h.size hb (by rw [hk]; exact nofun)
    rw [put_ne fun he => hne (h.tiled.unique hb ha (by omega) (by omega) (Nat.le_of_eq he.symm) (by omega)).1]
    exact h.foot b u hb hk hHb
  · obtain ⟨hne,hHb',hb'⟩ := hfree b u hb hHb
    rcases hold _ v hv with ⟨he,rfl⟩ | ⟨-,-,hv⟩
    · rw [hp]
      exact h.after b u x hb' hk hHb' (he ▸ ha)
    · exact h.after b u v hb' hk hHb' hv
  · rcases hold _ u hu with ⟨he,rfl⟩ | ⟨-,-,hu⟩
    · rw [hp]
      exact h.first q hq x (he ▸ ha)
    · exact h.first q hq u hu
  · obtain ⟨-,hHb,hb⟩ := hfree b u hb hHb
    exact h.alone b u hb hk hHb
  · constructor
    · rintro ⟨b,u,rfl,hb,hk,hHb,rfl⟩
      have h1 : b ≠ a := fun he => hHb (he ▸ hH)
      have h2 : b ≠ a + x.size := fun he => hHb (he ▸ hHc)
      exact ⟨b,u,rfl,update_some.2 (.inr ⟨h1,update_none.2 ⟨h2,hb⟩⟩),hk,fun h => hHb ((hK b).1 h).1,rfl⟩
    · rintro ⟨b,u,rfl,hb,hk,hHb,rfl⟩
      obtain ⟨-,hHb,hb⟩ := hfree b u hb hHb
      exact ⟨b,u,rfl,hb,hk,hHb,rfl⟩

theorem split (h : Heap cls head P B H m F) (ha : B a = some x) (hH : H a) (hx : x.kind ≠ .fence) (hy : y.kind ≠ .fence)
    (hz : z.kind ≠ .fence) (hs : x.size = y.size + z.size) (hy32 : 32 ≤ y.size) (hz32 : 32 ≤ z.size) (hy8 : 8 ∣ y.size)
    (hp : y.prev = x.prev) (hm : m (a + y.size) = tag z) (hK : ∀ b, K b ↔ H b ∨ b = a + y.size) :
    Heap cls head P (update (update B (a + y.size) (some z)) a (some y)) K (put m a (tag y)) F := by
  have hout := h.outside_tag ha
  -- no block begins inside the hole
  have hin : ∀ b u, B b = some u → a < b → ¬b < a + x.size := by
    intro b u hb h1 h2
    have := (h.tiled.unique hb ha (Nat.le_refl b) (Nat.lt_add_of_pos_right (h.tiled.pos hb)) (Nat.le_of_lt h1) h2).1
    lia
  have hold : ∀ b u, update (update B (a + y.size) (some z)) a (some y) b = some u →
      b = a ∧ u = y ∨ b = a + y.size ∧ u = z ∨ b ≠ a ∧ b ≠ a + y.size ∧ B b = some u := by
    intro b u hb
    rcases update_some.1 hb with hb | ⟨h1,hb⟩
    · exact .inl hb
    · rcases update_some.1 hb with hb | ⟨h2,hb⟩
      · exact .inr (.inl hb)
      · exact .inr (.inr ⟨h1,h2,hb⟩)
  have hfree : ∀ b u, update (update B (a + y.size) (some z)) a (some y) b = some u → ¬K b →
      b ≠ a ∧ b ≠ a + y.size ∧ ¬H b ∧ B b = some u := by
    intro b u hb hHb
    rcases hold b u hb with ⟨rfl,-⟩ | ⟨rfl,-⟩ | ⟨h1,h2,h3⟩
    · exact absurd ((hK b).2 (.inl hH)) hHb
    · exact absurd ((hK _).2 (.inr rfl)) hHb
    · exact ⟨h1,h2,fun hb => hHb ((hK b).2 (.inl hb)),h3⟩
  have hsz := h.sized a x ha
  have hz8 : 8 ∣ z.size := by
    rw [hs] at hsz
    exact (Nat.dvd_add_right hy8).1 hsz.2.1
  refine ⟨h.tiled.split ha hx hy hz hs (by lia) (by lia),h.fits,h.heads,fun b u hb => ?_,fun b u hb => ?_,
    fun b u hb hk hHb => ?_,fun b u v hb hk hHb hv => ?_,fun q hq u hu => ?_,fun b u hb hk hHb => ?_,h.rings.put hout _,
    fun n j => (h.listed n j).trans (or_congr_right ?_)⟩
  · rcases hold b u hb with ⟨rfl,rfl⟩ | ⟨rfl,rfl⟩ | ⟨-,-,hb⟩
    · exact ⟨hsz.1,hy8,fun _ => hy32⟩
    · exact ⟨Nat.dvd_add hsz.1 hy8,hz8,fun _ => hz32⟩
    · exact h.sized b u hb
  · rcases hold b u hb with ⟨rfl,rfl⟩ | ⟨rfl,rfl⟩ | ⟨hne,-,hb⟩
    · exact put_self _ _ _
    · rw [put_ne (by lia)]
      exact hm
    · rw [put_ne hne]
      exact h.tags b u hb
  · obtain ⟨hne,-,hHb,hb⟩ := hfree b u hb hHb
    have hsize := h.size hb (by rw [hk]; exact nofun)
    rw [put_ne fun he => hne (h.tiled.unique hb ha (by lia) (by lia) (Nat.le_of_eq he.symm) (by lia)).1]
    exact h.foot b u hb hk hHb
  · obtain ⟨hne,-,hHb',hb'⟩ := hfree b u hb hHb
    rcases hold _ v hv with ⟨he,rfl⟩ | ⟨he,rfl⟩ | ⟨-,-,hv⟩
    · rw [hp]
      exact h.after b u x hb' hk hHb' (he ▸ ha)
    · -- a block that ends inside the hole
      have hpos := h.tiled.pos hb'
      have hlast : b ≤ a + y.size - 1 ∧ a + y.size - 1 < b + u.size := by lia
      exact absurd (h.tiled.unique hb' ha hlast.1 hlast.2 (by lia) (by lia)).1 hne
    · exact h.after b u v hb' hk hHb' hv
  · rcases hold _ u hu with ⟨he,rfl⟩ | ⟨he,rfl⟩ | ⟨-,-,hu⟩
    · rw [hp]
      exact h.first q hq x (he ▸ ha)
    · obtain ⟨v,hv⟩ := h.tiled.first hq
      exact absurd (by lia) (hin q.start v hv (by lia))
    · exact h.first q hq u hu
  · obtain ⟨-,-,hHb,hb⟩ := hfree b u hb hHb
    exact h.alone b u hb hk hHb
  · constructor
    · rintro ⟨b,u,rfl,hb,hk,hHb,rfl⟩
      have h1 : b ≠ a := fun he => hHb (he ▸ hH)
      have h2 : b ≠ a + y.size := fun he => hin b u hb (by lia) (by lia)
      refine ⟨b,u,rfl,update_some.2 (.inr ⟨h1,update_some.2 (.inr ⟨h2,hb⟩)⟩),hk,fun h => ?_,rfl⟩
      exact ((hK b).1 h).elim hHb h2
    · rintro ⟨b,u,rfl,hb,hk,hHb,rfl⟩
      obtain ⟨-,-,hHb,hb⟩ := hfree b u hb hHb
      exact ⟨b,u,rfl,hb,hk,hHb,rfl⟩

/-! ## Blocks become holes, and holes blocks -/

theorem rem (h : Heap cls head P B H m F) (ha : B a = some x) (hk : x.kind = .free) (hH : ¬H a)
    (hK : ∀ b, K b ↔ H b ∨ b = a) : Heap cls head P B K (unlink m (a + 8)) (update F (a + 8) none) := by
  have hF : F (a + 8) = some (some (cls x.size)) := (h.listed _ _).2 (.inr ⟨a,x,rfl,ha,hk,hH,rfl⟩)
  obtain ⟨hr,hkeep⟩ := h.rings.unlink hF
  have hno : ∀ b, ¬K b → ¬H b := fun b hb hHb => hb ((hK b).2 (.inl hHb))
  refine ⟨h.tiled,h.fits,h.heads,h.sized,fun b y hb => (hkeep b (h.outside_tag hb)).trans (h.tags b y hb),
    fun b y hb hk hHb => (hkeep _ (h.outside_foot hb hk)).trans (h.foot b y hb hk (hno b hHb)),
    fun b y u hb hk hHb => h.after b y u hb hk (hno b hHb),h.first,fun b y hb hk hHb => h.alone b y hb hk (hno b hHb),hr,
    fun n j => ?_⟩
  by_cases hn : n = a + 8
  · subst hn
    rw [update_self]
    refine iff_of_false nofun ?_
    rintro (⟨-,q,hq,he⟩ | ⟨b,y,he,hb,-,hHb,-⟩)
    · have := (h.listed (a + 8) none).2 (.inl ⟨rfl,q,hq,he⟩)
      rw [hF] at this
      cases this
    · exact hHb ((hK b).2 (.inr (by omega)))
  · rw [update_of_ne hn,h.listed]
    refine or_congr_right ⟨?_,?_⟩
    · rintro ⟨b,y,rfl,hb,hk,hHb,rfl⟩
      exact ⟨b,y,rfl,hb,hk,fun hb' => ((hK b).1 hb').elim hHb fun he => hn (by rw [he]),rfl⟩
    · rintro ⟨b,y,rfl,hb,hk,hHb,rfl⟩
      exact ⟨b,y,rfl,hb,hk,hno b hHb,rfl⟩

theorem node_apart (h : Heap cls head P B H m F) (ha : B a = some x) (hk : x.kind ≠ .fence) (hH : x.kind = .free → H a) {n : ℕ}
    (hn : Node head F n) : n ≠ a + 8 ∧ Apart (a + 8) n := by
  obtain ⟨p,hp,h1,-,h2⟩ := h.tiled.arena ha
  have h2 := h2 hk
  have ho := h.tiled.order p hp
  have hs := h.size ha hk
  have hgoal : n + 16 ≤ a + 8 ∨ a + 24 ≤ n → n ≠ a + 8 ∧ Apart (a + 8) n := fun h => ⟨by lia,.inr (by lia)⟩
  rcases hn with ⟨j,rfl⟩ | ⟨j,hj⟩
  · rcases h.heads j p hp with h | h
    · exact hgoal (by lia)
    · exact hgoal (by lia)
  · rcases (h.listed n j).1 hj with ⟨-,q,hq,rfl⟩ | ⟨b,y,rfl,hb,hkb,hHb,-⟩
    · have hoq := h.tiled.order q hq
      rcases h.tiled.arenas p hp q hq with rfl | h | h
      · exact hgoal (by lia)
      · exact hgoal (by lia)
      · exact hgoal (by lia)
    · have hsb := h.size hb (by rw [hkb]; exact nofun)
      rcases Nat.lt_trichotomy a b with hab | rfl | hab
      · have := h.tiled.apart a x b y ha hb hab
        exact hgoal (by lia)
      · cases ha.symm.trans hb
        exact absurd (hH hkb) hHb
      · have := h.tiled.apart b y a x hb ha hab
        exact hgoal (by lia)

theorem ins (h : Heap cls head P B H m F) (ha : B a = some x) (hk : x.kind = .free) (hH : H a) (hp : x.prev = true)
    (hf : m (a + x.size - 8) = x.size) (hn : B (a + x.size) = some y) (hy : y.prev = false)
    (hpos : OnRing head F (some (cls x.size)) p) (hK : ∀ b, K b ↔ H b ∧ b ≠ a) :
    Heap cls head P B K (link m p (a + 8)) (update F (a + 8) (some (some (cls x.size)))) := by
  have hapart := fun n hn => h.node_apart ha (by rw [hk]; exact nofun) (fun _ => hH) (n := n) hn
  obtain ⟨hr,hkeep⟩ := h.rings.link hpos (fun hn => (hapart _ hn).1 rfl) (fun n hn => (hapart n hn).2) (Nat.succ_pos _)
  have hno : ∀ b, ¬K b → ¬H b ∨ b = a := fun b hb => by
    by_cases hba : b = a
    · exact .inr hba
    · exact .inl fun hHb => hb ((hK b).2 ⟨hHb,hba⟩)
  -- the words that are kept are no links of the new node either
  have hword : ∀ b u w, B b = some u → b ≤ w → w < b + u.size → (b = a → w ≠ a + 8 ∧ w ≠ a + 16) → Outside head F w →
      link m p (a + 8) w = m w := by
    intro b u w hb h1 h2 hne hout
    have hs := h.size ha (by rw [hk]; exact nofun)
    have hw : w ≠ a + 8 ∧ w ≠ a + 16 := by
      by_cases hba : b = a
      · exact hne hba
      · have := fun v h3 h4 (he : w = v) => hba (h.tiled.unique hb ha h1 h2 (he ▸ h3) (he ▸ h4)).1
        exact ⟨this _ (by omega) (by omega),this _ (by omega) (by omega)⟩
    exact hkeep w hout hw.1 hw.2
  refine ⟨h.tiled,h.fits,h.heads,h.sized,fun b u hb => ?_,fun b u hb hkb hHb => ?_,fun b u v hb hkb hHb hv => ?_,h.first,
    fun b u hb hkb hHb => ?_,hr,fun n j => ?_⟩
  · rw [hword b u b hb (Nat.le_refl b) (Nat.lt_add_of_pos_right (h.tiled.pos hb)) (fun he => by omega) (h.outside_tag hb)]
    exact h.tags b u hb
  · have hs := h.size hb (by rw [hkb]; exact nofun)
    rw [hword b u _ hb (by omega) (by omega) (fun he => by omega) (h.outside_foot hb hkb)]
    rcases hno b hHb with hHb | rfl
    · exact h.foot b u hb hkb hHb
    · cases ha.symm.trans hb
      exact hf
  · rcases hno b hHb with hHb | rfl
    · exact h.after b u v hb hkb hHb hv
    · cases ha.symm.trans hb
      cases hn.symm.trans hv
      rw [hy,hk]
      exact iff_of_false nofun nofun
  · rcases hno b hHb with hHb | rfl
    · exact h.alone b u hb hkb hHb
    · cases ha.symm.trans hb
      exact hp
  · by_cases hne : n = a + 8
    · subst hne
      rw [update_self,Option.some.injEq]
      constructor
      · rintro rfl
        exact .inr ⟨a,x,rfl,ha,hk,fun h => ((hK a).1 h).2 rfl,rfl⟩
      · rintro (⟨-,q,hq,he⟩ | ⟨b,u,he,hb,-,-,rfl⟩)
        · have hnode : Node head F (a + 8) := .inr ⟨none,(h.listed _ _).2 (.inl ⟨rfl,q,hq,he⟩)⟩
          exact absurd rfl (hapart _ hnode).1
        · obtain rfl : a = b := by omega
          cases ha.symm.trans hb
          rfl
    · rw [update_of_ne hne,h.listed]
      refine or_congr_right ⟨?_,?_⟩
      · rintro ⟨b,u,rfl,hb,hkb,hHb,rfl⟩
        exact ⟨b,u,rfl,hb,hkb,fun h => hHb ((hK b).1 h).1,rfl⟩
      · rintro ⟨b,u,rfl,hb,hkb,hHb,rfl⟩
        exact ⟨b,u,rfl,hb,hkb,(hno b hHb).resolve_right fun he => hne (by rw [he]),rfl⟩

theorem unuse (h : Heap cls head P B H m F) (ha : B a = some x) (hk : x.kind = .used) (hK : ∀ b, K b ↔ H b ∨ b = a) :
    Heap cls head P B K m F := by
  have hno : ∀ b, ¬K b → ¬H b := fun b hb hHb => hb ((hK b).2 (.inl hHb))
  refine ⟨h.tiled,h.fits,h.heads,h.sized,h.tags,fun b y hb hk hHb => h.foot b y hb hk (hno b hHb),
    fun b y u hb hk hHb => h.after b y u hb hk (hno b hHb),h.first,fun b y hb hk hHb => h.alone b y hb hk (hno b hHb),h.rings,
    fun n j => (h.listed n j).trans (or_congr_right ⟨?_,?_⟩)⟩
  · rintro ⟨b,y,rfl,hb,hkb,hHb,rfl⟩
    refine ⟨b,y,rfl,hb,hkb,fun hb' => ((hK b).1 hb').elim hHb ?_,rfl⟩
    rintro rfl
    cases ha.symm.trans hb
    rw [hk] at hkb
    cases hkb
  · rintro ⟨b,y,rfl,hb,hkb,hHb,rfl⟩
    exact ⟨b,y,rfl,hb,hkb,hno b hHb,rfl⟩

theorem use (h : Heap cls head P B H m F) (ha : B a = some x) (hk : x.kind = .used)
    (hn : ∀ y, B (a + x.size) = some y → y.prev = true) (hK : ∀ b, K b ↔ H b ∧ b ≠ a) : Heap cls head P B K m F := by
  have hno : ∀ b y, B b = some y → y.kind = .free → ¬K b → ¬H b := by
    intro b y hb hkb hHb hHb'
    refine hHb ((hK b).2 ⟨hHb',?_⟩)
    rintro rfl
    cases ha.symm.trans hb
    rw [hk] at hkb
    cases hkb
  refine ⟨h.tiled,h.fits,h.heads,h.sized,h.tags,fun b y hb hkb hHb => h.foot b y hb hkb (hno b y hb hkb hHb),
    fun b y u hb hkb hHb hu => ?_,h.first,fun b y hb hkb hHb => h.alone b y hb hkb (hno b y hb hkb hHb),h.rings,
    fun n j => (h.listed n j).trans (or_congr_right ⟨?_,?_⟩)⟩
  · by_cases hba : b = a
    · subst hba
      cases ha.symm.trans hb
      exact iff_of_true (hn u hu) hk
    · exact h.after b y u hb hkb (fun hHb' => hHb ((hK b).2 ⟨hHb',hba⟩)) hu
  · rintro ⟨b,y,rfl,hb,hkb,hHb,rfl⟩
    exact ⟨b,y,rfl,hb,hkb,fun h => hHb ((hK b).1 h).1,rfl⟩
  · rintro ⟨b,y,rfl,hb,hkb,hHb,rfl⟩
    exact ⟨b,y,rfl,hb,hkb,hno b y hb hkb hHb,rfl⟩

/-! ## A new arena -/

theorem node_in (h : Heap cls head P B H m F) {n : ℕ} (hn : Node head F n) :
    (∃ j, n = head j) ∨ ∃ q ∈ P, q.base ≤ n ∧ n + 16 ≤ q.stop + 8 := by
  refine hn.imp id ?_
  rintro ⟨j,hj⟩
  rcases (h.listed n j).1 hj with ⟨-,q,hq,rfl⟩ | ⟨b,y,rfl,hb,hk,-⟩
  · have := h.tiled.order q hq
    exact ⟨q,hq,Nat.le_refl _,by omega⟩
  · obtain ⟨q,hq,h1,-,h2⟩ := h.tiled.arena hb
    have := h2 (by rw [hk]; exact nofun)
    have := h.tiled.order q hq
    have := h.size hb (by rw [hk]; exact nofun)
    exact ⟨q,hq,by omega,by omega⟩

theorem extend {q : Arena} {e : Mem} (h : Heap cls head P B H m F) (hpos : OnRing head F none p)
    (hn : ∀ r ∈ P, q.stop + 8 ≤ r.base ∨ r.stop + 8 ≤ q.base) (hheads : ∀ j, head j + 16 ≤ q.base ∨ q.stop + 8 ≤ head j)
    (h0 : 0 < q.base) (hb : q.base + 16 ≤ q.start) (h8 : 8 ∣ q.start) (hfits : q.stop + 8 ≤ 2 ^ 64) (hs : q.start + x.size = q.stop)
    (hx : x.kind ≠ .fence) (hxp : x.prev = true) (hx32 : 32 ≤ x.size) (hx8 : 8 ∣ x.size) (hy : y.kind = .fence) (hy8 : y.size = 8)
    (hm : ∀ w, (w < q.base + 16 ∨ q.stop + 8 ≤ w) → e w = link m p q.base w) (hmx : e q.start = tag x)
    (hmy : e q.stop = tag y) (hK : ∀ b, K b ↔ H b ∨ b = q.start) :
    Heap cls head (q :: P) (update (update B q.stop (some y)) q.start (some x)) K e (update F q.base (some none)) := by
  have hfar : ∀ n, Node head F n → n + 16 ≤ q.base ∨ q.stop + 8 ≤ n := by
    intro n hnode
    rcases h.node_in hnode with ⟨j,rfl⟩ | ⟨r,hr,h1,h2⟩
    · exact hheads j
    · rcases hn r hr with h | h
      · exact .inr (by lia)
      · exact .inl (by lia)
  obtain ⟨hr,hkeep⟩ := h.rings.link (n := q.base) hpos (fun hnode => by have := hfar _ hnode; lia)
    (fun n hnode => .inr (by have := hfar n hnode; lia)) h0
  have hold : ∀ b u, update (update B q.stop (some y)) q.start (some x) b = some u →
      b = q.start ∧ u = x ∨ b = q.stop ∧ u = y ∨ B b = some u ∧ (b + u.size ≤ q.base ∨ q.stop + 8 ≤ b) := by
    intro b u hb
    rcases update_some.1 hb with hb | ⟨-,hb⟩
    · exact .inl hb
    · rcases update_some.1 hb with hb | ⟨-,hb⟩
      · exact .inr (.inl hb)
      · obtain ⟨r,hr,h1,h2,-⟩ := h.tiled.arena hb
        have := h.tiled.order r hr
        refine .inr (.inr ⟨hb,?_⟩)
        rcases hn r hr with h | h
        · exact .inr (by lia)
        · exact .inl (by lia)
  have hback : ∀ b u, B b = some u → update (update B q.stop (some y)) q.start (some x) b = some u := by
    intro b u hb
    obtain ⟨r,hr,h1,h2,-⟩ := h.tiled.arena hb
    have := h.tiled.order r hr
    have := h.tiled.pos hb
    have hne : b ≠ q.start ∧ b ≠ q.stop := by rcases hn r hr with h | h <;> lia
    exact update_some.2 (.inr ⟨hne.1,update_some.2 (.inr ⟨hne.2,hb⟩)⟩)
  -- a word of an old block
  have hword : ∀ b u w, B b = some u → (b + u.size ≤ q.base ∨ q.stop + 8 ≤ b) → b ≤ w → w < b + u.size → Outside head F w →
      e w = m w := by
    intro b u w hb hfar h1 h2 hout
    have hpos := h.tiled.pos hb
    rw [hm w (by lia),hkeep w hout (by lia) (by lia)]
  have hHold : ∀ b, ¬K b → ¬H b ∧ b ≠ q.start := fun b hb => ⟨fun h => hb ((hK b).2 (.inl h)),fun h => hb ((hK b).2 (.inr h))⟩
  refine ⟨h.tiled.extend hn h0 hb hs hx (by lia) hy hy8,List.forall_mem_cons.2 ⟨hfits,h.fits⟩,
    fun j => List.forall_mem_cons.2 ⟨hheads j,h.heads j⟩,fun b u hb => ?_,fun b u hb => ?_,fun b u hb hk hHb => ?_,
    fun b u v hb hk hHb hv => ?_,List.forall_mem_cons.2 ⟨fun u hu => ?_,fun r hr u hu => ?_⟩,fun b u hb hk hHb => ?_,
    hr.congr fun w hw => hm w ?_,fun n j => ?_⟩
  · rcases hold b u hb with ⟨rfl,rfl⟩ | ⟨rfl,rfl⟩ | ⟨hb,-⟩
    · exact ⟨h8,hx8,fun _ => hx32⟩
    · exact ⟨hs ▸ Nat.dvd_add h8 hx8,hy8 ▸ Nat.dvd_refl 8,fun hk => absurd hy hk⟩
    · exact h.sized b u hb
  · rcases hold b u hb with ⟨rfl,rfl⟩ | ⟨rfl,rfl⟩ | ⟨hb,hf⟩
    · exact hmx
    · exact hmy
    · rw [hword b u b hb hf (Nat.le_refl b) (Nat.lt_add_of_pos_right (h.tiled.pos hb)) (h.outside_tag hb)]
      exact h.tags b u hb
  · obtain ⟨hHb,hne⟩ := hHold b hHb
    rcases hold b u hb with ⟨rfl,-⟩ | ⟨rfl,rfl⟩ | ⟨hb,hf⟩
    · exact absurd rfl hne
    · rw [hy] at hk
      cases hk
    · have hsize := h.size hb (by rw [hk]; exact nofun)
      rw [hword b u _ hb hf (by lia) (by lia) (h.outside_foot hb hk)]
      exact h.foot b u hb hk hHb
  · obtain ⟨hHb,hne⟩ := hHold b hHb
    rcases hold b u hb with ⟨rfl,-⟩ | ⟨rfl,rfl⟩ | ⟨hb',-⟩
    · exact absurd rfl hne
    · exact absurd hy hk
    · obtain ⟨w,hw⟩ := h.tiled.next hb' hk
      rw [hback _ _ hw] at hv
      cases hv
      exact h.after b u _ hb' hk hHb hw
  · rcases update_some.1 hu with ⟨-,rfl⟩ | ⟨hne,-⟩
    · exact hxp
    · exact absurd rfl hne
  · obtain ⟨v,hv⟩ := h.tiled.first hr
    rw [hback _ _ hv] at hu
    cases hu
    exact h.first r hr _ hv
  · obtain ⟨hHb,hne⟩ := hHold b hHb
    rcases hold b u hb with ⟨rfl,-⟩ | ⟨rfl,rfl⟩ | ⟨hb,-⟩
    · exact absurd rfl hne
    · rw [hy] at hk
      cases hk
    · exact h.alone b u hb hk hHb
  · -- the ring's words lie outside the blocks of the arena
    by_contra hin
    refine hw fun n hnode => ?_
    rcases (Rings.node_update (i := none) (fun hnode => by have := hfar _ hnode; lia)).1 hnode with hnode | rfl
    · have := hfar n hnode
      lia
    · lia
  · by_cases hnq : n = q.base
    · subst hnq
      rw [update_self,Option.some.injEq]
      constructor
      · rintro rfl
        exact .inl ⟨rfl,q,List.mem_cons_self,rfl⟩
      · rintro (⟨rfl,-⟩ | ⟨b,u,he,hb,hk,hHb,-⟩)
        · rfl
        · obtain ⟨hHb,hne⟩ := hHold b hHb
          rcases hold b u hb with ⟨rfl,-⟩ | ⟨rfl,rfl⟩ | ⟨hb,hf⟩
          · exact absurd rfl hne
          · rw [hy] at hk
            cases hk
          · have := h.size hb (by rw [hk]; exact nofun)
            lia
    · rw [update_of_ne hnq,h.listed]
      refine or_congr (and_congr_right fun _ => ?_) ⟨?_,?_⟩
      · simp only [List.mem_cons,exists_eq_or_imp,hnq,false_or]
      · rintro ⟨b,u,rfl,hb,hk,hHb,rfl⟩
        refine ⟨b,u,rfl,hback b u hb,hk,fun h' => ((hK b).1 h').elim hHb fun he => ?_,rfl⟩
        rcases hold b u (hback b u hb) with ⟨-,-⟩ | ⟨rfl,-⟩ | ⟨-,hf⟩
        · obtain ⟨r,hr,h1,h2,-⟩ := h.tiled.arena hb
          have := h.tiled.order r hr
          have := h.tiled.pos hb
          rcases hn r hr with h | h <;> lia
        · lia
        · have := h.tiled.pos hb
          lia
      · rintro ⟨b,u,rfl,hb,hk,hHb,rfl⟩
        obtain ⟨hHb,hne⟩ := hHold b hHb
        rcases hold b u hb with ⟨rfl,-⟩ | ⟨rfl,rfl⟩ | ⟨hb,-⟩
        · exact absurd rfl hne
        · rw [hy] at hk
          cases hk
        · exact ⟨b,u,rfl,hb,hk,hHb,rfl⟩

end Heap

end Catlib.Alloc
