import Mathlib.Data.List.Basic

/-! # Blocks that tile their arenas

An arena is a stretch of memory cut into blocks, one behind the other, up to a fence block
of one word at its end. A layout says which blocks there are, by address. Cutting a block
in two, joining two neighbours and changing a block's mark keep the tiling.
-/
namespace Catlib.Alloc

open Function

/-- What a block is there for. The fence ends an arena. -/
inductive Kind where
  | free
  | used
  | fence
  deriving DecidableEq

/-- A block: its length, its kind, and whether its mark says that the block before it is in use. -/
structure Blk where
  size : ℕ
  kind : Kind
  prev : Bool
  deriving DecidableEq

/-- The blocks by their addresses. -/
abbrev Layout := ℕ → Option Blk

/-- A region with a record of its own from `base`, blocks from `start`, and the fence at `stop`. -/
structure Arena where
  base : ℕ
  start : ℕ
  stop : ℕ
  deriving DecidableEq

/-- The blocks tile the arenas, and the arenas share no word. -/
structure Tiled (P : List Arena) (B : Layout) : Prop where
  arenas : ∀ p ∈ P, ∀ q ∈ P, p = q ∨ p.stop + 8 ≤ q.base ∨ q.stop + 8 ≤ p.base
  order : ∀ p ∈ P, 0 < p.base ∧ p.base + 16 ≤ p.start ∧ p.start < p.stop
  within : ∀ a x, B a = some x → 0 < x.size ∧ ∃ p ∈ P, p.start ≤ a ∧
    (x.kind = .fence → a = p.stop ∧ x.size = 8) ∧ (x.kind ≠ .fence → a + x.size ≤ p.stop)
  cover : ∀ p ∈ P, ∀ w, p.start ≤ w → w < p.stop + 8 → ∃ a x, B a = some x ∧ a ≤ w ∧ w < a + x.size
  apart : ∀ a x b y, B a = some x → B b = some y → a < b → a + x.size ≤ b

variable {P : List Arena} {B : Layout} {a b c : ℕ} {x y z : Blk} {p q : Arena}

theorem update_some : update B a (some z) c = some x ↔ c = a ∧ x = z ∨ c ≠ a ∧ B c = some x := by
  by_cases h : c = a
  · subst h
    rw [update_self,Option.some.injEq]
    exact ⟨fun e => .inl ⟨rfl,e.symm⟩,fun e => e.elim (·.2.symm) fun e => absurd rfl e.1⟩
  · rw [update_of_ne h]
    exact ⟨fun e => .inr ⟨h,e⟩,fun e => e.elim (fun e => absurd e.1 h) (·.2)⟩

theorem update_none : update B a none c = some x ↔ c ≠ a ∧ B c = some x := by
  by_cases h : c = a
  · subst h
    rw [update_self]
    exact ⟨nofun,fun e => absurd rfl e.1⟩
  · rw [update_of_ne h]
    exact ⟨fun e => ⟨h,e⟩,And.right⟩

namespace Tiled

theorem pos (t : Tiled P B) (ha : B a = some x) : 0 < x.size := (t.within a x ha).1

theorem arena (t : Tiled P B) (ha : B a = some x) : ∃ p ∈ P, p.start ≤ a ∧ a + x.size ≤ p.stop + 8 ∧
    (x.kind ≠ .fence → a + x.size ≤ p.stop) := by
  obtain ⟨-,p,hp,h₁,h₂,h₃⟩ := t.within a x ha
  refine ⟨p,hp,h₁,?_,h₃⟩
  by_cases hk : x.kind = .fence
  · obtain ⟨h₄,h₅⟩ := h₂ hk
    omega
  · have := h₃ hk
    omega

theorem meet (t : Tiled P B) (hp : p ∈ P) (hq : q ∈ P) {w : ℕ} (hpw : p.base ≤ w)
    (hpw' : w < p.stop + 8) (hqw : q.base ≤ w) (hqw' : w < q.stop + 8) : p = q := by
  rcases t.arenas p hp q hq with h | h | h
  · exact h
  all_goals omega

theorem unique (t : Tiled P B) (ha : B a = some x) (hb : B b = some y) {w : ℕ} (haw : a ≤ w)
    (haw' : w < a + x.size) (hbw : b ≤ w) (hbw' : w < b + y.size) : a = b ∧ x = y := by
  rcases Nat.lt_trichotomy a b with h | h | h
  · have := t.apart a x b y ha hb h
    omega
  · subst h
    exact ⟨rfl,Option.some.inj (ha.symm.trans hb)⟩
  · have := t.apart b y a x hb ha h
    omega

theorem next (t : Tiled P B) (ha : B a = some x) (hk : x.kind ≠ .fence) :
    ∃ y, B (a + x.size) = some y := by
  obtain ⟨p,hp,h₁,-,h₂⟩ := t.arena ha
  have h₃ := h₂ hk
  obtain ⟨b,y,hb,hb₁,hb₂⟩ := t.cover p hp (a + x.size) (by omega) (by omega)
  have hpos := t.pos ha
  rcases Nat.lt_trichotomy a b with h | h | h
  · have := t.apart a x b y ha hb h
    have he : b = a + x.size := by omega
    exact ⟨y,he ▸ hb⟩
  · subst h
    rw [Option.some.inj (ha.symm.trans hb)] at hb₂ hb₁
    omega
  · have := t.apart b y a x hb ha h
    omega

theorem first (t : Tiled P B) (hp : p ∈ P) : ∃ x, B p.start = some x := by
  have ho := t.order p hp
  obtain ⟨b,y,hb,hb₁,hb₂⟩ := t.cover p hp p.start (Nat.le_refl _) (by omega)
  obtain ⟨q,hq,h₁,h₂,-⟩ := t.arena hb
  have ho' := t.order q hq
  have := t.meet hp hq (w := p.start) (by omega) (by omega) (by omega) (by omega)
  subst this
  have he : b = p.start := by omega
  exact ⟨y,he ▸ hb⟩

theorem last (t : Tiled P B) (hp : p ∈ P) : ∃ x, B p.stop = some x ∧ x.kind = .fence := by
  have ho := t.order p hp
  obtain ⟨b,y,hb,hb₁,hb₂⟩ := t.cover p hp p.stop (by omega) (by omega)
  obtain ⟨-,q,hq,h₁,h₂,h₃⟩ := t.within b y hb
  have ho' := t.order q hq
  by_cases hk : y.kind = .fence
  · obtain ⟨e,he⟩ := h₂ hk
    have := t.meet hp hq (w := p.stop) (by omega) (by omega) (by omega) (by omega)
    subst this
    exact ⟨y,e ▸ hb,hk⟩
  · have := h₃ hk
    have := t.meet hp hq (w := p.stop) (by omega) (by omega) (by omega) (by omega)
    subst this
    omega

theorem prior (t : Tiled P B) (ha : B a = some x) (hs : ∀ p ∈ P, a ≠ p.start) :
    ∃ b y, B b = some y ∧ b + y.size = a ∧ y.kind ≠ .fence := by
  obtain ⟨p,hp,h₁,h₂,-⟩ := t.arena ha
  have hne := hs p hp
  have hpos := t.pos ha
  obtain ⟨b,y,hb,hb₁,hb₂⟩ := t.cover p hp (a - 1) (by lia) (by lia)
  have := t.apart b y a x hb ha (by lia)
  refine ⟨b,y,hb,by lia,fun hk => ?_⟩
  obtain ⟨-,q,hq,h₃,h₄,-⟩ := t.within b y hb
  obtain ⟨e,he⟩ := h₄ hk
  have ho := t.order p hp
  have ho' := t.order q hq
  have := t.meet hp hq (w := b) (by lia) (by lia) (by lia) (by lia)
  subst this
  lia

theorem retag (t : Tiled P B) (ha : B a = some x) (hs : z.size = x.size)
    (hk : z.kind = .fence ↔ x.kind = .fence) : Tiled P (update B a (some z)) := by
  have hB : ∀ c w, update B a (some z) c = some w → ∃ w', B c = some w' ∧ w.size = w'.size ∧
      (w.kind = .fence ↔ w'.kind = .fence) := by
    intro c w hc
    rcases update_some.1 hc with ⟨rfl,rfl⟩ | ⟨-,hc⟩
    · exact ⟨x,ha,hs,hk⟩
    · exact ⟨w,hc,rfl,Iff.rfl⟩
  refine ⟨t.arenas,t.order,fun c w hc => ?_,fun p hp v h₁ h₂ => ?_,fun c w d v hc hd h => ?_⟩
  · obtain ⟨w',hw',e,hk'⟩ := hB c w hc
    simpa only [e,ne_eq,hk'] using t.within c w' hw'
  · obtain ⟨c,w,hc,h₃,h₄⟩ := t.cover p hp v h₁ h₂
    by_cases h : c = a
    · subst h
      rw [Option.some.inj (hc.symm.trans ha),← hs] at h₄
      exact ⟨c,z,update_self ..,h₃,h₄⟩
    · exact ⟨c,w,by rwa [update_of_ne h],h₃,h₄⟩
  · obtain ⟨w',hw',e,-⟩ := hB c w hc
    obtain ⟨v',hv',-,-⟩ := hB d v hd
    rw [e]
    exact t.apart c w' d v' hw' hv' h

theorem merge (t : Tiled P B) (ha : B a = some x) (hb : B (a + x.size) = some y)
    (hx : x.kind ≠ .fence) (hy : y.kind ≠ .fence) (hz : z.kind ≠ .fence)
    (hs : z.size = x.size + y.size) :
    Tiled P (update (update B (a + x.size) none) a (some z)) := by
  have hxp := t.pos ha
  have hyp := t.pos hb
  -- a block of the new layout is the joined one or an old one beside it
  have hB : ∀ c w, update (update B (a + x.size) none) a (some z) c = some w ↔
      c = a ∧ w = z ∨ c ≠ a ∧ c ≠ a + x.size ∧ B c = some w := by
    intro c w
    rw [update_some,update_none]
  refine ⟨t.arenas,t.order,fun c w hc => ?_,fun p hp v h₁ h₂ => ?_,fun c w d v hc hd h => ?_⟩
  · rcases (hB c w).1 hc with ⟨rfl,rfl⟩ | ⟨-,-,hc⟩
    · obtain ⟨p,hp,h₁,-,h₂⟩ := t.arena ha
      obtain ⟨q,hq,h₃,-,h₄⟩ := t.arena hb
      have ho := t.order p hp
      have ho' := t.order q hq
      have := h₂ hx
      have := h₄ hy
      have := t.meet hp hq (w := c + x.size) (by lia) (by lia) (by lia) (by lia)
      subst this
      exact ⟨by lia,p,hp,h₁,fun hk => absurd hk hz,fun _ => by lia⟩
    · exact t.within c w hc
  · obtain ⟨c,w,hc,h₃,h₄⟩ := t.cover p hp v h₁ h₂
    by_cases h : c = a
    · subst h
      rw [Option.some.inj (hc.symm.trans ha)] at h₄
      exact ⟨c,z,(hB c z).2 (.inl ⟨rfl,rfl⟩),h₃,by lia⟩
    · by_cases h' : c = a + x.size
      · subst h'
        rw [Option.some.inj (hc.symm.trans hb)] at h₄
        exact ⟨a,z,(hB a z).2 (.inl ⟨rfl,rfl⟩),by lia,by lia⟩
      · exact ⟨c,w,(hB c w).2 (.inr ⟨h,h',hc⟩),h₃,h₄⟩
  · rcases (hB c w).1 hc with ⟨rfl,rfl⟩ | ⟨h₁,h₁',hc'⟩ <;>
      rcases (hB d v).1 hd with ⟨rfl,rfl⟩ | ⟨h₂,h₂',hd'⟩
    · lia
    · have := t.apart c x d v ha hd' h
      have := t.apart (c + x.size) y d v hb hd' (by lia)
      lia
    · exact t.apart c w d x hc' ha h
    · exact t.apart c w d v hc' hd' h

theorem split (t : Tiled P B) (ha : B a = some x) (hx : x.kind ≠ .fence) (hy : y.kind ≠ .fence)
    (hz : z.kind ≠ .fence) (hs : x.size = y.size + z.size) (hy₀ : 0 < y.size) (hz₀ : 0 < z.size) :
    Tiled P (update (update B (a + y.size) (some z)) a (some y)) := by
  have hB : ∀ c w, update (update B (a + y.size) (some z)) a (some y) c = some w ↔
      c = a ∧ w = y ∨ c = a + y.size ∧ w = z ∨ c ≠ a ∧ c ≠ a + y.size ∧ B c = some w := by
    intro c w
    rw [update_some,update_some]
    refine or_congr_right ⟨?_,?_⟩
    · rintro ⟨h,⟨rfl,rfl⟩ | ⟨h',hc⟩⟩
      · exact .inl ⟨rfl,rfl⟩
      · exact .inr ⟨h,h',hc⟩
    · rintro (⟨rfl,rfl⟩ | ⟨h,h',hc⟩)
      · exact ⟨by lia,.inl ⟨rfl,rfl⟩⟩
      · exact ⟨h,.inr ⟨h',hc⟩⟩
  obtain ⟨p₀,hp₀,h₁,-,h₂⟩ := t.arena ha
  have h₂ := h₂ hx
  refine ⟨t.arenas,t.order,fun c w hc => ?_,fun p hp v h₁ h₂ => ?_,fun c w d v hc hd h => ?_⟩
  · rcases (hB c w).1 hc with ⟨rfl,rfl⟩ | ⟨rfl,rfl⟩ | ⟨-,-,hc⟩
    · exact ⟨hy₀,p₀,hp₀,h₁,fun hk => absurd hk hy,fun _ => by lia⟩
    · exact ⟨hz₀,p₀,hp₀,by lia,fun hk => absurd hk hz,fun _ => by lia⟩
    · exact t.within c w hc
  · obtain ⟨c,w,hc,h₃,h₄⟩ := t.cover p hp v h₁ h₂
    by_cases h : c = a
    · subst h
      rw [Option.some.inj (hc.symm.trans ha)] at h₄
      by_cases hv : v < c + y.size
      · exact ⟨c,y,(hB c y).2 (.inl ⟨rfl,rfl⟩),h₃,hv⟩
      · exact ⟨c + y.size,z,(hB _ z).2 (.inr (.inl ⟨rfl,rfl⟩)),by lia,by lia⟩
    · have h' : c ≠ a + y.size := by
        rintro rfl
        have := t.apart a x _ w ha hc (by lia)
        lia
      exact ⟨c,w,(hB c w).2 (.inr (.inr ⟨h,h',hc⟩)),h₃,h₄⟩
  · -- old blocks stand clear of the block that was cut
    have hout : ∀ e u, e ≠ a → B e = some u → e + u.size ≤ a ∨ a + x.size ≤ e := by
      intro e u hne he
      rcases Nat.lt_or_gt_of_ne hne with h | h
      · exact .inl (t.apart e u a x he ha h)
      · exact .inr (t.apart a x e u ha he h)
    rcases (hB c w).1 hc with ⟨rfl,rfl⟩ | ⟨rfl,rfl⟩ | ⟨h₁,-,hc'⟩ <;>
      rcases (hB d v).1 hd with ⟨rfl,rfl⟩ | ⟨rfl,rfl⟩ | ⟨h₂,-,hd'⟩
    · lia
    · lia
    · have := hout d v h₂ hd'
      lia
    · lia
    · lia
    · have := hout d v h₂ hd'
      lia
    · have := hout c w h₁ hc'
      lia
    · have := hout c w h₁ hc'
      lia
    · exact t.apart c w d v hc' hd' h

theorem extend (t : Tiled P B) (hn : ∀ q ∈ P, p.stop + 8 ≤ q.base ∨ q.stop + 8 ≤ p.base)
    (h0 : 0 < p.base) (hb : p.base + 16 ≤ p.start) (hs : p.start + x.size = p.stop)
    (hx : x.kind ≠ .fence) (hx₀ : 0 < x.size) (hy : y.kind = .fence) (hy' : y.size = 8) :
    Tiled (p :: P) (update (update B p.stop (some y)) p.start (some x)) := by
  have hne : p.stop ≠ p.start := by lia
  have hfree : ∀ c w, B c = some w → c + w.size ≤ p.base ∨ p.stop + 8 ≤ c := by
    intro c w hc
    obtain ⟨q,hq,h₁,h₂,-⟩ := t.arena hc
    have := t.order q hq
    have := hn q hq
    lia
  have hB : ∀ c w, update (update B p.stop (some y)) p.start (some x) c = some w ↔
      c = p.start ∧ w = x ∨ c = p.stop ∧ w = y ∨ B c = some w := by
    intro c w
    rw [update_some,update_some]
    refine or_congr_right ⟨?_,?_⟩
    · rintro ⟨-,h | ⟨-,hc⟩⟩
      · exact .inl h
      · exact .inr hc
    · rintro (⟨rfl,rfl⟩ | hc)
      · exact ⟨hne,.inl ⟨rfl,rfl⟩⟩
      · have := hfree _ _ hc
        have := t.pos hc
        exact ⟨by lia,.inr ⟨by lia,hc⟩⟩
  refine ⟨?_,?_,fun c w hc => ?_,?_,fun c w d v hc hd h => ?_⟩
  · simp only [List.forall_mem_cons,true_or,true_and]
    exact ⟨fun q hq => .inr (hn q hq),fun q hq => ⟨.inr (hn q hq).symm,t.arenas q hq⟩⟩
  · exact List.forall_mem_cons.2 ⟨⟨h0,hb,by lia⟩,t.order⟩
  · rcases (hB c w).1 hc with ⟨rfl,rfl⟩ | ⟨rfl,rfl⟩ | hc
    · exact ⟨hx₀,p,List.mem_cons_self,Nat.le_refl _,fun hk => absurd hk hx,fun _ => by lia⟩
    · exact ⟨by lia,p,List.mem_cons_self,by lia,fun _ => ⟨rfl,hy'⟩,fun hk => absurd hy hk⟩
    · obtain ⟨h₁,q,hq,h₂⟩ := t.within c w hc
      exact ⟨h₁,q,List.mem_cons_of_mem _ hq,h₂⟩
  · refine List.forall_mem_cons.2 ⟨fun v h₁ h₂ => ?_,fun q hq v h₁ h₂ => ?_⟩
    · by_cases hv : v < p.stop
      · exact ⟨p.start,x,(hB _ _).2 (.inl ⟨rfl,rfl⟩),h₁,by lia⟩
      · exact ⟨p.stop,y,(hB _ _).2 (.inr (.inl ⟨rfl,rfl⟩)),by lia,by lia⟩
    · obtain ⟨c,w,hc,h₃⟩ := t.cover q hq v h₁ h₂
      exact ⟨c,w,(hB _ _).2 (.inr (.inr hc)),h₃⟩
  · rcases (hB c w).1 hc with ⟨rfl,rfl⟩ | ⟨rfl,rfl⟩ | hc' <;>
      rcases (hB d v).1 hd with ⟨rfl,rfl⟩ | ⟨rfl,rfl⟩ | hd'
    · lia
    · lia
    · have := hfree d v hd'
      have := t.pos hd'
      lia
    · lia
    · lia
    · have := hfree d v hd'
      have := t.pos hd'
      lia
    · have := hfree c w hc'
      have := t.pos hc'
      lia
    · have := hfree c w hc'
      have := t.pos hc'
      lia
    · exact t.apart c w d v hc' hd' h

end Tiled

end Catlib.Alloc
