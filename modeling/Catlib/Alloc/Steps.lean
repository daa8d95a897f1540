import Catlib.Alloc.Tags

/-! # Joining and cutting blocks

What the writes of a free block, of its neighbours' flags and of a cut make of a heap.
-/
namespace Catlib.Alloc

open Function

variable {ι : Type*} {cls : ℕ → ι} {head : Option ι → ℕ} {P : List Arena} {B B' : Layout} {H K : ℕ → Prop} {m : Mem}
  {F F' : ℕ → Option (Option ι)} {a b c n w v p : ℕ} {x y z : Blk}

/-! ## Layouts that agree -/

/-- What stays of a block when the one before it changes. -/
def Blk.core (x : Blk) : ℕ × Kind := (x.size,x.kind)

/-- The layouts have the same blocks but for those between `b` and `b + n`. -/
def AgreeOff (B B' : Layout) (b n : ℕ) : Prop := ∀ c, c < b ∨ b + n ≤ c → (B' c).map Blk.core = (B c).map Blk.core

theorem AgreeOff.refl (B : Layout) (b n : ℕ) : AgreeOff B B b n := fun _ _ => rfl

theorem AgreeOff.mono {b' n' : ℕ} (h : AgreeOff B B' b n) (hb : b' ≤ b) (hn : b + n ≤ b' + n') : AgreeOff B B' b' n' :=
  fun c hc => h c (by omega)

theorem AgreeOff.trans {B'' : Layout} (h : AgreeOff B B' b n) (h' : AgreeOff B' B'' b n) : AgreeOff B B'' b n :=
  fun c hc => (h' c hc).trans (h c hc)

theorem AgreeOff.update (h : AgreeOff B B' b n) (hc : b ≤ c ∧ c < b + n) (o : Option Blk) : AgreeOff B (update B' c o) b n := by
  intro d hd
  rw [update_of_ne (by omega)]
  exact h d hd

theorem AgreeOff.mark (h : AgreeOff B B' b n) (hc : B' c = some x) (v : Bool) :
    AgreeOff B (Function.update B' c (some { x with prev := v })) b n := by
  intro d hd
  rw [← h d hd]
  by_cases hdc : d = c
  · rw [hdc,update_self,hc]
    rfl
  · rw [update_of_ne hdc]

theorem AgreeOff.after (h : AgreeOff B B' b n) (hc : c < b ∨ b + n ≤ c) (hB : B c = some x) :
    ∃ y, B' c = some y ∧ y.size = x.size ∧ y.kind = x.kind := by
  have he := h c hc
  rw [hB] at he
  obtain ⟨y,hy,he⟩ := Option.map_eq_some_iff.1 he
  exact ⟨y,hy,congrArg Prod.fst he,congrArg Prod.snd he⟩

theorem AgreeOff.before (h : AgreeOff B B' b n) (hc : c < b ∨ b + n ≤ c) (hB : B' c = some x) :
    ∃ y, B c = some y ∧ y.size = x.size ∧ y.kind = x.kind := by
  have he := (h c hc).symm
  rw [hB] at he
  obtain ⟨y,hy,he⟩ := Option.map_eq_some_iff.1 he
  exact ⟨y,hy,congrArg Prod.fst he,congrArg Prod.snd he⟩

/-! ## The writes of a block -/

theorem setFreeMb_tag (h8 : 8 ∣ x.size) (hk : x.kind ≠ .fence) :
    setFreeMb m a x.size (flags x) = put (put m a (tag x)) (a + x.size - 8) x.size := by
  rw [setFreeMb,or_flags h8 hk]
  rfl

theorem setFreeMb_frame (h1 : w ≠ a) (h2 : w ≠ a + n - 8) (b : ℕ) : setFreeMb m a n b w = m w := by
  rw [setFreeMb,show a + n - unitsize = a + n - 8 from rfl,put_ne h2,put_ne h1]

theorem Rings.setFreeMb {head : ι → ℕ} {F : ℕ → Option ι} (r : Rings m head F) (h1 : Outside head F a)
    (h2 : Outside head F (a + n - 8)) (b : ℕ) : Rings (setFreeMb m a n b) head F :=
  (r.put h1 _).put h2 _

theorem Heap.setFree (h : Heap cls head P B H m F) (ha : B a = some x) (hH : H a) (hx : x.kind ≠ .fence) (hz : z.kind ≠ .fence)
    (hs : z.size = x.size) (hp : z.prev = x.prev) :
    Heap cls head P (update B a (some z)) H (setFreeMb m a z.size (flags z)) F ∧
      setFreeMb m a z.size (flags z) (a + z.size - 8) = z.size := by
  have h8 : 8 ∣ z.size := hs ▸ h.eights ha
  have hsize := h.size ha hx
  have hself : update B a (some z) a = some z := update_self ..
  rw [setFreeMb_tag h8 hz]
  exact ⟨(h.retag ha hH hs hp hx hz).scribble hself (fun _ => hH) (by omega) (by omega) _,put_self _ _ _⟩

/-- A free block with its size at its end, and a block behind it that knows. -/
structure Ready (B : Layout) (m : Mem) (b n : ℕ) : Prop where
  block : B b = some ⟨n,.free,true⟩
  foot : m (b + n - 8) = n
  next : ∃ y, B (b + n) = some y ∧ y.prev = false

theorem Heap.joinBack (h : Heap cls head P B (· = a) m F) (ha : B a = some x) (hx : x.kind ≠ .fence) (hp : x.prev = false) :
    ∃ b y, B b = some y ∧ y.kind = .free ∧ y.prev = true ∧ b + y.size = a ∧ m (a - 8) = y.size ∧
      Heap cls head P (update (update B a none) b (some ⟨y.size + x.size,.free,true⟩)) (· = b)
        (setFreeMb (unlink m (entry b)) b (y.size + x.size) prevAllocBit) (update F (entry b) none) ∧
      AgreeOff B (update (update B a none) b (some ⟨y.size + x.size,.free,true⟩)) b (y.size + x.size) := by
  have hfirst : ∀ p ∈ P, a ≠ p.start := by
    rintro p hp' rfl
    rw [h.first p hp' x ha] at hp
    cases hp
  obtain ⟨b,y,hb,hby,hy⟩ := h.tiled.prior ha hfirst
  have hpos := h.tiled.pos hb
  have hba : b ≠ a := by omega
  have hk : y.kind = .free := by
    have hafter := h.after b y x hb hy hba (by rw [hby]; exact ha)
    cases hkind : y.kind with
    | free => rfl
    | used => rw [hafter.2 hkind] at hp; cases hp
    | fence => exact absurd hkind hy
  have hyp := h.alone b y hb hk hba
  have hfoot := h.foot b y hb hk hba
  rw [hby] at hfoot
  refine ⟨b,y,hb,hk,hyp,hby,hfoot,?_,?_⟩
  · have hrem := h.rem (K := fun c => c = a ∨ c = b) hb hk hba fun c => Iff.rfl
    have hmerge := hrem.merge (z := ⟨y.size + x.size,.free,true⟩) (K := (· = b)) hb (.inr rfl) (hby.symm ▸ ha) (.inl hby) hy hx nofun rfl hyp.symm
      fun c => by rw [hby]; exact ⟨fun hc => ⟨.inr hc,by omega⟩,fun hc => hc.1.resolve_left hc.2⟩
    rw [hby] at hmerge
    have hself : update (update B a none) b (some ⟨y.size + x.size,.free,true⟩) b = some ⟨y.size + x.size,.free,true⟩ := update_self ..
    have hflags : flags ⟨y.size + x.size,.free,true⟩ = prevAllocBit := rfl
    have h8 : 8 ∣ (⟨y.size + x.size,.free,true⟩ : Blk).size := Nat.dvd_add (h.eights hb) (h.eights ha)
    rw [← hflags,setFreeMb_tag h8 nofun]
    have hsize := h.size ha hx
    exact hmerge.scribble hself (fun _ => rfl) (by dsimp only; omega) (by dsimp only; omega) _
  · have hsize := h.tiled.pos ha
    exact ((AgreeOff.refl B b _).update (by omega) none).update (by omega) _

theorem Heap.joinFront (h : Heap cls head P B (· = a) m F) (ha : B a = some x) (hx : x.kind ≠ .fence) (hp : x.prev = true)
    (hc : B (a + x.size) = some y) (hk : y.kind = .free) :
    Heap cls head P (update (update B (a + x.size) none) a (some ⟨x.size + y.size,.free,true⟩)) (· = a)
        (setFreeMb (unlink m (entry (a + x.size))) a (x.size + y.size) prevAllocBit) (update F (entry (a + x.size)) none) ∧
      Ready (update (update B (a + x.size) none) a (some ⟨x.size + y.size,.free,true⟩))
        (setFreeMb (unlink m (entry (a + x.size))) a (x.size + y.size) prevAllocBit) a (x.size + y.size) ∧
      AgreeOff B (update (update B (a + x.size) none) a (some ⟨x.size + y.size,.free,true⟩)) a (x.size + y.size) := by
  have hpos := h.tiled.pos ha
  have hposc := h.tiled.pos hc
  have hy : y.kind ≠ .fence := by rw [hk]; exact nofun
  have hne : a + x.size ≠ a := by omega
  have hrem := h.rem (K := fun c => c = a ∨ c = a + x.size) hc hk hne fun c => Iff.rfl
  have hmerge := hrem.merge (z := ⟨x.size + y.size,.free,true⟩) (K := (· = a)) ha (.inl rfl) hc (.inr rfl) hx hy nofun rfl hp.symm
    fun c => ⟨fun hc => ⟨.inl hc,by omega⟩,fun hc => hc.1.resolve_right hc.2⟩
  have hself : update (update B (a + x.size) none) a (some ⟨x.size + y.size,.free,true⟩) a = some ⟨x.size + y.size,.free,true⟩ :=
    update_self ..
  have hflags : flags ⟨x.size + y.size,.free,true⟩ = prevAllocBit := rfl
  have h8 : 8 ∣ (⟨x.size + y.size,.free,true⟩ : Blk).size := Nat.dvd_add (h.eights ha) (h.eights hc)
  have hsize := h.size ha hx
  refine ⟨?_,⟨hself,put_self _ _ _,?_⟩,?_⟩
  · rw [← hflags,setFreeMb_tag h8 nofun]
    exact hmerge.scribble hself (fun _ => rfl) (by dsimp only; omega) (by dsimp only; omega) _
  · obtain ⟨w,hw⟩ := h.tiled.next hc hy
    have hafter := h.after _ y w hc hy hne hw
    refine ⟨w,?_,?_⟩
    · rw [update_of_ne (by omega),update_of_ne (by omega),← Nat.add_assoc]
      exact hw
    · cases hwp : w.prev with
      | false => rfl
      | true => rw [hafter.1 hwp] at hk; cases hk
  · exact ((AgreeOff.refl B a _).update (by omega) none).update (by omega) _

theorem Heap.keepFront (h : Heap cls head P B (· = a) m F) (ha : B a = some ⟨n,.free,true⟩) (hf : m (a + n - 8) = n)
    (hc : B (a + n) = some y) (hk : y.kind ≠ .free) :
    Heap cls head P (update B (a + n) (some { y with prev := false })) (· = a)
        (put m (a + n) (m (a + n) &&& compl prevAllocBit)) F ∧
      Ready (update B (a + n) (some { y with prev := false })) (put m (a + n) (m (a + n) &&& compl prevAllocBit)) a n := by
  have hpos := h.size ha nofun
  have hpos : 32 ≤ n := hpos
  rw [h.tags _ y hc,tag_clear_prev (h.eights hc) (h.lt hc).2]
  refine ⟨h.mark ha rfl hc (fun hf => absurd hf hk) rfl rfl,?_,?_,_,update_self ..,rfl⟩
  · rw [update_of_ne (by omega)]
    exact ha
  · rw [put_ne (by omega)]
    exact hf

/-- A block in use, and its size. -/
def InUse (B : Layout) (c n : ℕ) : Prop := ∃ u, B c = some u ∧ u.kind = .used ∧ u.size = n

theorem InUse.self_iff (h : InUse B a v) : InUse B c n ↔ c ≠ a ∧ InUse B c n ∨ c = a ∧ n = v := by
  constructor
  · intro hu
    by_cases hca : c = a
    · subst hca
      obtain ⟨u,hc,-,rfl⟩ := h
      obtain ⟨u',hc',-,rfl⟩ := hu
      cases hc.symm.trans hc'
      exact .inr ⟨rfl,rfl⟩
    · exact .inl ⟨hca,hu⟩
  · rintro (⟨-,hu⟩ | ⟨rfl,rfl⟩)
    · exact hu
    · exact h

theorem inUse_update : InUse (update B b (some x)) c n ↔ c = b ∧ x.kind = .used ∧ x.size = n ∨ c ≠ b ∧ InUse B c n := by
  constructor
  · rintro ⟨u,hu,hk,hs⟩
    exact (update_some.1 hu).imp (fun ⟨hc,he⟩ => ⟨hc,he ▸ hk,he ▸ hs⟩) fun ⟨hc,hu⟩ => ⟨hc,u,hu,hk,hs⟩
  · rintro (⟨hc,hk,hs⟩ | ⟨hc,u,hu,hk,hs⟩)
    · exact ⟨x,update_some.2 (.inl ⟨hc,rfl⟩),hk,hs⟩
    · exact ⟨u,update_some.2 (.inr ⟨hc,hu⟩),hk,hs⟩

theorem inUse_remove : InUse (update B b none) c n ↔ c ≠ b ∧ InUse B c n :=
  ⟨fun ⟨u,hu,hk,hs⟩ => ⟨(update_none.1 hu).1,u,(update_none.1 hu).2,hk,hs⟩,
    fun ⟨hc,u,hu,hk,hs⟩ => ⟨u,update_none.2 ⟨hc,hu⟩,hk,hs⟩⟩

theorem inUse_mark (hb : B b = some y) (v : Bool) : InUse (update B b (some { y with prev := v })) c n ↔ InUse B c n := by
  rw [inUse_update]
  constructor
  · rintro (⟨rfl,hk,hs⟩ | ⟨-,h⟩)
    · exact ⟨y,hb,hk,hs⟩
    · exact h
  · intro h
    by_cases hcb : c = b
    · obtain ⟨u,hu,hk,hs⟩ := h
      rw [hcb,hb] at hu
      cases hu
      exact .inl ⟨hcb,hk,hs⟩
    · exact .inr ⟨hcb,h⟩

theorem InUse.apart (h : InUse B c n) (t : Tiled P B) (ha : B a = some x) (hca : c = a → x.kind ≠ .used) (hw : a ≤ w)
    (hw' : w < a + x.size) : c ≠ w := by
  rintro rfl
  obtain ⟨u,hu,hk,-⟩ := h
  obtain ⟨rfl,rfl⟩ := t.unique hu ha (Nat.le_refl c) (Nat.lt_add_of_pos_right (t.pos hu)) hw hw'
  exact hca rfl hk

theorem Tiled.inUse_apart (ht : Tiled P B) (hu : InUse B a n) (hb : InUse B b v) (hab : a ≠ b) : a + n ≤ b ∨ b + v ≤ a := by
  obtain ⟨x,hx,-,rfl⟩ := hu
  obtain ⟨y,hy,-,rfl⟩ := hb
  rcases Nat.lt_or_gt_of_ne hab with h | h
  · exact .inl (ht.apart a x b y hx hy h)
  · exact .inr (ht.apart b y a x hy hx h)

theorem Heap.inUse_size (h : Heap cls head P B H m F) (hu : InUse B c n) : Alloc.mbSize m c = n := by
  obtain ⟨x,hx,hk,rfl⟩ := hu
  exact h.mbSize hx (by rw [hk]; exact nofun)

theorem Heap.held_outside (h : Heap cls head P B H m F) (hu : InUse B c n) (hw : c ≤ w) (hw' : w < c + n) : Outside head F w := by
  obtain ⟨u,hc,hk,rfl⟩ := hu
  exact h.outside hc hw hw' fun hf => by rw [hk] at hf; cases hf

theorem InUse.word_ne (hu : InUse B c n) (ht : Tiled P B) (hb : B b = some y) (hcb : c ≠ b) (hw : c ≤ w) (hw' : w < c + n)
    (he : b ≤ v) (he' : v < b + y.size) : w ≠ v := by
  obtain ⟨u,hc,-,rfl⟩ := hu
  rintro rfl
  exact hcb (ht.unique hc hb hw hw' he he').1

/-- What a call that gives a block does: the block is in use, and it was not. -/
structure Gives (B B' : Layout) (m m' : Mem) (a k : ℕ) : Prop where
  new : ∀ n, ¬InUse B a n
  used : ∀ c n, InUse B' c n ↔ InUse B c n ∨ c = a ∧ n = k
  held : ∀ c s w, InUse B c s → c < w → w < c + s → m' w = m w

theorem Heap.give {k : ℕ} {q : Bool} (h : Heap cls head P B (· = a) m F) (ha : B a = some ⟨k,.free,q⟩) (hc : B (a + k) = some y) :
    Heap cls head P (update (update B a (some ⟨k,.used,q⟩)) (a + k) (some { y with prev := true })) (fun _ => False)
        (put (put m a (m a ||| allocBit)) (a + k) (put m a (m a ||| allocBit) (a + k) ||| prevAllocBit)) F ∧
      ∀ c n, InUse (update (update B a (some ⟨k,.used,q⟩)) (a + k) (some { y with prev := true })) c n ↔
        InUse B c n ∨ c = a ∧ n = k := by
  have hk := h.size ha nofun
  have hk : 32 ≤ k := hk
  have h1 : Heap cls head P (update B a (some ⟨k,.used,q⟩)) (· = a) (put m a (m a ||| allocBit)) F := by
    rw [h.tags a _ ha,tag_or_alloc (h.eights ha) rfl]
    exact h.retag ha rfl rfl rfl nofun nofun
  have ha1 : update B a (some (⟨k,.used,q⟩ : Blk)) a = some ⟨k,.used,q⟩ := update_self ..
  have hc1 : update B a (some (⟨k,.used,q⟩ : Blk)) (a + k) = some y := by
    rw [update_of_ne (by omega)]
    exact hc
  have h2 := h1.mark (z := { y with prev := true }) ha1 rfl hc1 (fun _ _ => rfl) rfl rfl
  rw [h1.tags _ y hc1,tag_or_prev (h1.eights hc1)]
  have ha2 : update (update B a (some (⟨k,.used,q⟩ : Blk))) (a + k) (some { y with prev := true }) a = some ⟨k,.used,q⟩ := by
    rw [update_of_ne (by omega)]
    exact ha1
  refine ⟨h2.use ha2 rfl (fun u hu => ?_) fun c => ⟨False.elim,fun hc => hc.2 hc.1⟩,fun c n => ?_⟩
  · have hu : update (update B a (some (⟨k,.used,q⟩ : Blk))) (a + k) (some { y with prev := true }) (a + k) = some u := hu
    rw [update_self] at hu
    cases hu
    rfl
  · have hother : InUse B c n → c ≠ a := fun hu => hu.apart h.tiled ha (fun _ => nofun) (Nat.le_refl a) (by dsimp only; omega)
    rw [inUse_mark hc1,inUse_update]
    constructor
    · rintro (⟨hca,-,hn⟩ | ⟨-,hu⟩)
      · exact .inr ⟨hca,hn.symm⟩
      · exact .inl hu
    · rintro (hu | ⟨hca,hn⟩)
      · exact .inr ⟨hother hu,hu⟩
      · exact .inl ⟨hca,rfl,hn.symm⟩

theorem Heap.cut {k : ℕ} (h : Heap cls head P B (· = a) m F) (ha : B a = some ⟨n,.free,true⟩) (hc : B (a + n) = some y)
    (hy : y.prev = false) (h8 : 8 ∣ k) (hk : 32 ≤ k) (hkn : k + 32 ≤ n) (hp : OnRing head F (some (cls (n - k))) p) :
    Heap cls head P (update (update B (a + k) (some ⟨n - k,.free,true⟩)) a (some ⟨k,.free,true⟩)) (· = a)
      (link (setFreeMb (setFreeMb m (a + k) (n - k) prevAllocBit) a k prevAllocBit) p (entry (a + k)))
      (update F (entry (a + k)) (some (some (cls (n - k))))) := by
  have hn8 : 8 ∣ n := h.eights ha
  have hz8 : 8 ∣ n - k := Nat.dvd_sub hn8 h8
  have hflags : ∀ s, flags ⟨s,.free,true⟩ = prevAllocBit := fun _ => rfl
  rw [← hflags (n - k),setFreeMb_tag (x := ⟨n - k,.free,true⟩) hz8 nofun,hflags (n - k),← hflags k,
    setFreeMb_tag (x := ⟨k,.free,true⟩) h8 nofun]
  dsimp only
  have hend : a + k + (n - k) = a + n := by lia
  rw [hend]
  -- the second block is written inside the hole, then the first one is made smaller
  have h1 := h.scribble ha (fun _ => rfl) (w := a + k) (by lia) (by dsimp only; lia) (tag ⟨n - k,.free,true⟩)
  have h2 := h1.scribble ha (fun _ => rfl) (w := a + n - 8) (by lia) (by dsimp only; lia) (n - k)
  have hm : put (put m (a + k) (tag ⟨n - k,.free,true⟩)) (a + n - 8) (n - k) (a + k) = tag ⟨n - k,.free,true⟩ := by
    rw [put_ne (by lia),put_self]
  have h3 := h2.split (y := ⟨k,.free,true⟩) (z := ⟨n - k,.free,true⟩) (K := fun c => c = a ∨ c = a + k) ha rfl nofun nofun nofun
    (by dsimp only; lia) hk (by dsimp only; lia) h8 rfl hm fun b => Iff.rfl
  have ha3 : update (update B (a + k) (some (⟨n - k,.free,true⟩ : Blk))) a (some ⟨k,.free,true⟩) a = some ⟨k,.free,true⟩ := update_self ..
  have hc3 : update (update B (a + k) (some (⟨n - k,.free,true⟩ : Blk))) a (some ⟨k,.free,true⟩) (a + k) = some ⟨n - k,.free,true⟩ := by
    rw [update_of_ne (by lia),update_self]
  have h4 := h3.scribble ha3 (fun _ => .inl rfl) (w := a + k - 8) (by lia) (by dsimp only; lia) k
  refine h4.ins hc3 rfl (.inr rfl) rfl ?_ (y := y) ?_ hy hp fun b => ⟨fun hb => ⟨.inl hb,by lia⟩,fun hb => hb.1.resolve_right hb.2⟩
  · dsimp only
    rw [hend,put_ne (by lia),put_ne (by lia),put_self]
  · dsimp only
    rw [hend,update_of_ne (by lia),update_of_ne (by lia)]
    exact hc

/-! ## Blocks in use that are cut and joined -/

theorem Heap.link_tag {j : Option ι} (h : Heap cls head P B K m F) (ha : B a = some x) (hp : OnRing head F j p) (hn : a ≠ n)
    (hn' : a ≠ n + 8) : link (put m a v) p n = put (link m p n) a v := by
  have hout := h.outside_tag ha
  exact link_put hn hn' (hout p hp.node).1 (hout _ (h.rings.next hp).1.node).2

theorem Heap.carve {l k : ℕ} {q : Bool} (h : Heap cls head P B (· = a) m F) (ha : B a = some ⟨l,.used,q⟩) (hc : B (a + l) = some y)
    (hy : y.prev = false) (h8 : 8 ∣ k) (hk : 32 ≤ k) (hkl : k + 32 ≤ l) (hp : OnRing head F (some (cls (l - k))) p) :
    Heap cls head P (update (update B (a + k) (some ⟨l - k,.free,true⟩)) a (some ⟨k,.used,q⟩)) (fun _ => False)
      (put (link (setFreeMb m (a + k) (l - k) prevAllocBit) p (entry (a + k))) a (tag ⟨k,.used,q⟩))
      (update F (entry (a + k)) (some (some (cls (l - k))))) := by
  have hz8 : 8 ∣ l - k := Nat.dvd_sub (h.eights ha) h8
  have hend : a + k + (l - k) = a + l := by lia
  have hset : setFreeMb m (a + k) (l - k) prevAllocBit = put (put m (a + k) (tag ⟨l - k,.free,true⟩)) (a + l - 8) (l - k) := by
    rw [show prevAllocBit = flags ⟨l - k,.free,true⟩ from rfl,setFreeMb_tag (x := ⟨l - k,.free,true⟩) hz8 nofun]
    dsimp only
    rw [hend]
  rw [hset]
  -- the second block is written inside the hole, then the first one is made smaller
  have h1 := h.scribble ha (fun _ => rfl) (w := a + k) (by lia) (by dsimp only; lia) (tag ⟨l - k,.free,true⟩)
  have h2 := h1.scribble ha (fun _ => rfl) (w := a + l - 8) (by lia) (by dsimp only; lia) (l - k)
  have hm : put (put m (a + k) (tag ⟨l - k,.free,true⟩)) (a + l - 8) (l - k) (a + k) = tag ⟨l - k,.free,true⟩ := by
    rw [put_ne (by lia),put_self]
  have h3 := h2.split (y := ⟨k,.used,q⟩) (z := ⟨l - k,.free,true⟩) (K := fun c => c = a ∨ c = a + k) ha rfl nofun nofun nofun
    (by dsimp only; lia) hk (by dsimp only; lia) h8 rfl hm fun b => Iff.rfl
  have ha3 : update (update B (a + k) (some (⟨l - k,.free,true⟩ : Blk))) a (some ⟨k,.used,q⟩) a = some ⟨k,.used,q⟩ := update_self ..
  have hc3 : update (update B (a + k) (some (⟨l - k,.free,true⟩ : Blk))) a (some ⟨k,.used,q⟩) (a + k) = some ⟨l - k,.free,true⟩ := by
    rw [update_of_ne (by lia),update_self]
  rw [← h2.link_tag ha hp (by unfold entry unitsize; lia) (by unfold entry unitsize; lia)]
  have h4 := h3.ins (K := (· = a)) hc3 rfl (.inr rfl) rfl (y := y) (p := p) ?_ ?_ hy hp
    fun b => ⟨fun hb => ⟨.inl hb,by lia⟩,fun hb => hb.1.resolve_right hb.2⟩
  · refine h4.use ha3 rfl (fun u hu => ?_) fun c => ⟨False.elim,fun hc => hc.2 hc.1⟩
    cases hc3.symm.trans hu
    rfl
  · dsimp only
    rw [hend,put_ne (by lia),put_self]
  · dsimp only
    rw [hend,update_of_ne (by lia),update_of_ne (by lia)]
    exact hc

theorem Heap.annex {l : ℕ} {q r : Bool} (h : Heap cls head P B (· = a + n) m F) (ha : B a = some ⟨n,.used,q⟩)
    (hc : B (a + n) = some ⟨l,.free,r⟩) :
    Heap cls head P (update (update B (a + n) none) a (some ⟨n + l,.used,q⟩)) (· = a) (put m a (tag ⟨n + l,.used,q⟩)) F := by
  have hposn : 0 < n := h.tiled.pos ha
  have hhole := h.unuse (K := fun c => c = a + n ∨ c = a) ha rfl fun c => Iff.rfl
  exact hhole.merge (z := ⟨n + l,.used,q⟩) (K := (· = a)) ha (.inr rfl) hc (.inl rfl) nofun nofun nofun rfl rfl
    fun c => ⟨fun hc => ⟨.inr hc,by dsimp only; omega⟩,fun hc => hc.1.resolve_left hc.2⟩

theorem Heap.recut {l k : ℕ} {q r : Bool} (h : Heap cls head P B (· = a + n) m F) (ha : B a = some ⟨n,.used,q⟩)
    (hc : B (a + n) = some ⟨l,.free,r⟩) (hb : B (a + n + l) = some y) (hy : y.prev = false) (h8 : 8 ∣ k) (hk : 32 ≤ k)
    (hkl : k + 32 ≤ n + l) (hp : OnRing head F (some (cls (n + l - k))) p) :
    Heap cls head P (update (update (update (update B (a + n) none) a (some ⟨n + l,.used,q⟩)) (a + k)
        (some ⟨n + l - k,.free,true⟩)) a (some ⟨k,.used,q⟩)) (fun _ => False)
        (put (link (setFreeMb m (a + k) (n + l - k) prevAllocBit) p (entry (a + k))) a (tag ⟨k,.used,q⟩))
        (update F (entry (a + k)) (some (some (cls (n + l - k))))) ∧
      link (setFreeMb m (a + k) (n + l - k) prevAllocBit) p (entry (a + k)) a = m a ∧
      ∀ c s, InUse (update (update (update (update B (a + n) none) a (some ⟨n + l,.used,q⟩)) (a + k) (some ⟨n + l - k,.free,true⟩)) a
        (some ⟨k,.used,q⟩)) c s ↔ c ≠ a ∧ InUse B c s ∨ c = a ∧ s = k := by
  have hposn : 0 < n := h.tiled.pos ha
  have hposl : 0 < l := h.tiled.pos hc
  have hone := h.annex ha hc
  have ha1 : update (update B (a + n) none) a (some (⟨n + l,.used,q⟩ : Blk)) a = some ⟨n + l,.used,q⟩ := update_self ..
  have hb1 : update (update B (a + n) none) a (some (⟨n + l,.used,q⟩ : Blk)) (a + (n + l)) = some y := by
    rw [update_of_ne (by lia),update_of_ne (by lia),← Nat.add_assoc]
    exact hb
  have hcarve := hone.carve ha1 hb1 hy h8 hk hkl hp
  -- the tag of the joined block is written over
  have hset : setFreeMb (put m a (tag ⟨n + l,.used,q⟩)) (a + k) (n + l - k) prevAllocBit =
      put (setFreeMb m (a + k) (n + l - k) prevAllocBit) a (tag ⟨n + l,.used,q⟩) := by
    unfold setFreeMb unitsize
    rw [put_comm (a := a) (b := a + k) (by lia),put_comm (by lia)]
  have hset1 : Heap cls head P (update (update B (a + n) none) a (some ⟨n + l,.used,q⟩)) (· = a)
      (setFreeMb (put m a (tag ⟨n + l,.used,q⟩)) (a + k) (n + l - k) prevAllocBit) F :=
    (hone.scribble ha1 (fun _ => rfl) (by lia) (by dsimp only; lia) _).scribble ha1 (fun _ => rfl)
      (by unfold unitsize; lia) (by unfold unitsize; dsimp only; lia) _
  have hout := hset1.outside_tag ha1
  have hpa := (hout p hp.node).1
  have hza := (hout _ (hset1.rings.next hp).1.node).2
  rw [hset,put_ne hpa.symm] at hza
  rw [hset,link_put (by unfold entry unitsize; lia) (by unfold entry unitsize; lia) hpa hza,put_put] at hcarve
  refine ⟨hcarve,?_,fun c s => ?_⟩
  · rw [link_frame (by unfold entry unitsize; lia) (by unfold entry unitsize; lia) hpa hza,setFreeMb,
      put_ne (by unfold unitsize; lia),put_ne (by lia)]
  have hother : c ≠ a → InUse B c s → c ≠ a + n ∧ c ≠ a + k := by
    intro hca hu
    refine ⟨hu.apart h.tiled hc (fun _ => nofun) (Nat.le_refl _) (by dsimp only; lia),?_⟩
    by_cases hkn : k < n
    · exact hu.apart h.tiled ha (fun he => absurd he hca) (by lia) (by dsimp only; lia)
    · exact hu.apart h.tiled hc (fun _ => nofun) (by lia) (by dsimp only; lia)
  rw [inUse_update,inUse_update,inUse_update,inUse_remove]
  constructor
  · rintro (⟨hca,-,hs⟩ | ⟨hca,⟨-,hk,-⟩ | ⟨-,⟨he,-⟩ | ⟨-,-,hu⟩⟩⟩)
    · exact .inr ⟨hca,hs.symm⟩
    · cases hk
    · exact absurd he hca
    · exact .inl ⟨hca,hu⟩
  · rintro (⟨hca,hu⟩ | ⟨hca,hs⟩)
    · exact .inr ⟨hca,.inr ⟨(hother hca hu).2,.inr ⟨hca,(hother hca hu).1,hu⟩⟩⟩
    · exact .inl ⟨hca,rfl,hs.symm⟩

theorem Heap.absorb {l : ℕ} {q r : Bool} (h : Heap cls head P B (· = a + n) m F) (ha : B a = some ⟨n,.used,q⟩)
    (hc : B (a + n) = some ⟨l,.free,r⟩) (hb : B (a + n + l) = some y) :
    Heap cls head P (update (update (update B (a + n + l) (some { y with prev := true })) (a + n) none) a (some ⟨n + l,.used,q⟩))
        (fun _ => False) (put (put m (a + n + l) (m (a + n + l) ||| prevAllocBit)) a (m a + l)) F ∧
      ∀ c s, InUse (update (update (update B (a + n + l) (some { y with prev := true })) (a + n) none) a (some ⟨n + l,.used,q⟩)) c s ↔
        c ≠ a ∧ InUse B c s ∨ c = a ∧ s = n + l := by
  have hposn : 0 < n := h.tiled.pos ha
  have hposl : 0 < l := h.tiled.pos hc
  have htag : m a + l = tag ⟨n + l,.used,q⟩ := by
    rw [h.tags a _ ha]
    simp only [tag, reduceCtorEq, if_false]
    omega
  rw [htag,h.tags _ y hb,tag_or_prev (h.eights hb)]
  have hmark := h.mark (z := { y with prev := true }) hc rfl hb (fun _ _ => rfl) rfl rfl
  have ha1 : update B (a + n + l) (some { y with prev := true }) a = some ⟨n,.used,q⟩ := by
    rw [update_of_ne (by omega)]
    exact ha
  have hc1 : update B (a + n + l) (some { y with prev := true }) (a + n) = some ⟨l,.free,r⟩ := by
    rw [update_of_ne (by omega)]
    exact hc
  have hone := hmark.annex ha1 hc1
  refine ⟨hone.use (update_self ..) rfl (fun u hu => ?_) fun c => ⟨False.elim,fun hc => hc.2 hc.1⟩,fun c s => ?_⟩
  · dsimp only at hu
    rw [update_of_ne (by omega),update_of_ne (by omega),← Nat.add_assoc,update_self] at hu
    cases hu
    rfl
  · have hother : InUse B c s → c ≠ a + n := fun hu =>
      hu.apart h.tiled hc (by rintro _ ⟨⟩) (Nat.le_refl _) (by dsimp only; omega)
    rw [inUse_update,inUse_remove,inUse_mark hb]
    constructor
    · rintro (⟨hca,-,hs⟩ | ⟨hca,-,hu⟩)
      · exact .inr ⟨hca,hs.symm⟩
      · exact .inl ⟨hca,hu⟩
    · rintro (⟨hca,hu⟩ | ⟨hca,hs⟩)
      · exact .inr ⟨hca,hother hu,hu⟩
      · exact .inl ⟨hca,rfl,hs.symm⟩

end Catlib.Alloc

/-! # Live pointers

The pointers that a client holds, each with the size that it asked for, and the blocks in use behind
them.
-/
namespace Catlib.Alloc

open Function

variable {U V : ℕ → ℕ → Prop} {live : ℕ → Option ℕ} {a c n s p amt : ℕ}

/-- The live pointers are those of the blocks in use, and each block has room for what was asked for. -/
structure Serves (U : ℕ → ℕ → Prop) (live : ℕ → Option ℕ) : Prop where
  used : ∀ c s, U c s → ∃ n, live (c + 8) = some n ∧ n + 8 ≤ s
  held : ∀ p n, live p = some n → ∃ c s, p = c + 8 ∧ U c s

namespace Serves

theorem congr (h : Serves U live) (hV : ∀ c s, V c s ↔ U c s) : Serves V live :=
  ⟨fun c s hu => h.used c s ((hV c s).1 hu),fun p n hp => let ⟨c,s,he,hu⟩ := h.held p n hp; ⟨c,s,he,(hV c s).2 hu⟩⟩

theorem block (h : Serves U live) (hp : live p = some n) : ∃ c s, p = c + 8 ∧ U c s ∧ n + 8 ≤ s := by
  obtain ⟨c,s,rfl,hu⟩ := h.held p n hp
  obtain ⟨n',hn',hs⟩ := h.used c s hu
  obtain rfl := Option.some.inj (hp.symm.trans hn')
  exact ⟨c,s,rfl,hu,hs⟩

theorem zero (h : Serves U live) : live 0 = none := by
  cases hp : live 0 with
  | none => rfl
  | some n =>
    obtain ⟨c,s,he,-⟩ := h.held 0 n hp
    cases he

theorem drop (h : Serves U live) (hV : ∀ c s, V c s ↔ U c s ∧ c ≠ a) : Serves V (update live (a + 8) none) := by
  refine ⟨fun c s hv => ?_,fun p n hp => ?_⟩
  · obtain ⟨hu,hca⟩ := (hV c s).1 hv
    obtain ⟨n,hn,hs⟩ := h.used c s hu
    exact ⟨n,by rw [update_of_ne (by omega)]; exact hn,hs⟩
  · by_cases hpa : p = a + 8
    · rw [hpa,update_self] at hp
      cases hp
    · rw [update_of_ne hpa] at hp
      obtain ⟨c,s,rfl,hu⟩ := h.held p n hp
      exact ⟨c,s,rfl,(hV c s).2 ⟨hu,by omega⟩⟩

theorem add (h : Serves U live) (hV : ∀ c t, V c t ↔ U c t ∨ c = a ∧ t = s) (hnew : ∀ t, ¬U a t) (hs : amt + 8 ≤ s) :
    Serves V (update live (a + 8) (some amt)) := by
  refine ⟨fun c t hv => ?_,fun p n hp => ?_⟩
  · rcases (hV c t).1 hv with hu | ⟨rfl,rfl⟩
    · obtain ⟨n,hn,ht⟩ := h.used c t hu
      have hca : c ≠ a := fun he => hnew t (he ▸ hu)
      exact ⟨n,by rw [update_of_ne (by omega)]; exact hn,ht⟩
    · exact ⟨amt,update_self ..,hs⟩
  · by_cases hpa : p = a + 8
    · exact ⟨a,s,hpa,(hV a s).2 (.inr ⟨rfl,rfl⟩)⟩
    · rw [update_of_ne hpa] at hp
      obtain ⟨c,t,rfl,hu⟩ := h.held p n hp
      exact ⟨c,t,rfl,(hV c t).2 (.inl hu)⟩

theorem move {b : ℕ} (h : Serves U live) (hV : ∀ c t, V c t ↔ c ≠ a ∧ U c t ∨ c = b ∧ t = s) (hnew : b ≠ a → ∀ t, ¬U b t)
    (hs : amt + 8 ≤ s) : Serves V (update (update live (a + 8) none) (b + 8) (some amt)) := by
  refine (h.drop (V := fun c t => U c t ∧ c ≠ a) fun c t => Iff.rfl).add (fun c t => ?_) (fun t ht => ?_) hs
  · rw [hV,and_comm]
  · exact hnew ht.2 t ht.1

end Serves

end Catlib.Alloc
