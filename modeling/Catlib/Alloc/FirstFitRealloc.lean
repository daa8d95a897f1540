import Catlib.Alloc.FirstFitRun

/-! # dynmem_realloc

A block in use is cut, or joined with the free block behind it, or copied to a new one. The blocks of
the pools are those that the tags show, whatever has become of the ring.
-/
namespace Catlib.Alloc

open Function

variable {ι : Type*} {cls : ℕ → ι} {head : Option ι → ℕ} {P Q : List Arena} {B B' : Layout} {H : ℕ → Prop} {m m' M : Mem}
  {F : ℕ → Option (Option ι)} {G : ℕ → Option (Option Unit)} {a b c k n s t w p q amt newamt : ℕ} {v : Bool} {x y : Blk} {dm dm' : Dynmem}
  {addMem : Option (ℕ → ℕ)}

/-! ## What the tags show -/

/-- The tags show the blocks of the layout: how long they are, and which are free. -/
structure Shows (m : Mem) (P : List Arena) (B : Layout) : Prop where
  tiled : Tiled P B
  size : ∀ c x, B c = some x → x.kind ≠ .fence → mbSize m c = x.size
  free : ∀ c x, B c = some x → (m c &&& allocBit = 0 ↔ x.kind = .free)

theorem Heap.shows (h : Heap cls head P B H m F) : Shows m P B :=
  ⟨h.tiled,fun _ _ hc hk => h.mbSize hc hk,fun _ _ hc => h.alloc_zero hc⟩

theorem Shows.cut (ht : Tiled P B) (ha : B a = some ⟨t,.used,v⟩) (h8 : 8 ∣ k) (h8t : 8 ∣ t) (hk : 0 < k) (hkt : k + 32 ≤ t) (hlt : t < 2 ^ 64)
    (hother : ∀ c x, B c = some x → c ≠ a → (x.kind ≠ .fence → mbSize M c = x.size) ∧ (M c &&& allocBit = 0 ↔ x.kind = .free))
    (hrest : M (a + k) = tag ⟨t - k,.free,true⟩) (hflags : M a &&& ctlbmask = flags ⟨k,.used,v⟩) :
    Shows (put M a (k ||| M a &&& ctlbmask)) P (update (update B (a + k) (some ⟨t - k,.free,true⟩)) a (some ⟨k,.used,v⟩)) := by
  have h8' : 8 ∣ t - k := Nat.dvd_sub h8t h8
  have hword : ∀ c x, update (update B (a + k) (some (⟨t - k,.free,true⟩ : Blk))) a (some ⟨k,.used,v⟩) c = some x →
      (x.kind ≠ .fence → mbSize (put M a (k ||| M a &&& ctlbmask)) c = x.size) ∧
        (put M a (k ||| M a &&& ctlbmask) c &&& allocBit = 0 ↔ x.kind = .free) := by
    intro c x hc
    rcases update_some.1 hc with ⟨rfl,rfl⟩ | ⟨hca,hc⟩
    · rw [mbSize,put_self,hflags,or_flags (x := ⟨k,.used,v⟩) h8 (by rintro ⟨⟩)]
      exact ⟨fun _ => tag_size (x := ⟨k,.used,v⟩) h8 (by dsimp only; lia) (by rintro ⟨⟩),tag_alloc (x := ⟨k,.used,v⟩) h8⟩
    · rw [mbSize,put_ne hca]
      rcases update_some.1 hc with ⟨rfl,rfl⟩ | ⟨-,hc⟩
      · rw [hrest]
        exact ⟨fun _ => tag_size (x := ⟨t - k,.free,true⟩) h8' (by dsimp only; lia) (by rintro ⟨⟩),tag_alloc (x := ⟨t - k,.free,true⟩) h8'⟩
      · exact hother c x hc hca
  refine ⟨ht.split ha (by rintro ⟨⟩) (by rintro ⟨⟩) (by rintro ⟨⟩) (by dsimp only; lia) hk (by dsimp only; lia),fun c x hc => (hword c x hc).1,
    fun c x hc => (hword c x hc).2⟩

theorem inUse_cut (ht : Tiled P B) (ha : B a = some ⟨t,.used,v⟩) (hk : 0 < k) (hkt : k < t) :
    InUse (update (update B (a + k) (some ⟨t - k,.free,true⟩)) a (some ⟨k,.used,v⟩)) c n ↔ c ≠ a ∧ InUse B c n ∨ c = a ∧ n = k := by
  rw [inUse_update,inUse_update]
  constructor
  · rintro (⟨hca,-,hs⟩ | ⟨hca,⟨-,hk,-⟩ | ⟨-,hu⟩⟩)
    · exact .inr ⟨hca,hs.symm⟩
    · cases hk
    · exact .inl ⟨hca,hu⟩
  · rintro (⟨hca,hu⟩ | ⟨hca,hs⟩)
    · exact .inr ⟨hca,.inr ⟨hu.apart ht ha (fun he => absurd he hca) (by omega) (by dsimp only; omega),hu⟩⟩
    · exact .inl ⟨hca,rfl,hs.symm⟩

theorem Tiled.annex {l : ℕ} {r : Bool} (ht : Tiled P B) (ha : B a = some ⟨n,.used,v⟩) (hc : B (a + n) = some ⟨l,.free,r⟩) :
    Tiled P (update (update B (a + n) none) a (some ⟨n + l,.used,v⟩)) ∧
      ∀ c u, c ≠ a → (InUse (update (update B (a + n) none) a (some ⟨n + l,.used,v⟩)) c u ↔ InUse B c u) := by
  refine ⟨ht.merge ha hc nofun nofun nofun rfl,fun c u hca => ?_⟩
  rw [inUse_update,inUse_remove]
  constructor
  · rintro (⟨he,-⟩ | ⟨-,-,hu⟩)
    · exact absurd he hca
    · exact hu
  · exact fun hu => .inr ⟨hca,hu.apart ht hc (fun _ => nofun) (Nat.le_refl _) (Nat.lt_add_of_pos_right (ht.pos hc)),hu⟩

/-! ## Cutting a block in use -/

theorem carve_frame (hkt : k + 32 ≤ t)
    (hm : ∀ w, Outside dm.heads G w → m w = dm.mem w) (hcur : Node dm.heads G dm.current)
    (hnext : Node dm.heads G (setFreeMb m (a + k) (t - k) prevAllocBit dm.current)) (hw : Outside dm.heads G w)
    (hno : ¬(a + k ≤ w ∧ w < a + t)) :
    link (setFreeMb m (a + k) (t - k) prevAllocBit) dm.current (entry (a + k)) w = dm.mem w := by
  rw [link_frame (by unfold entry unitsize; omega) (by unfold entry unitsize; omega) (hw _ hcur).1 (hw _ hnext).2,
    setFreeMb_frame (by omega) (by omega)]
  exact hm w hw

theorem shrink_shows (g : FirstFit P B G dm) (hu : InUse B a n) (h8 : 8 ∣ k) (hk : 0 < k) (hkn : k ≤ n) :
    ∃ dm' B' s, shrinkAllocBlock dm a k = some dm' ∧ Shows dm'.mem P B' ∧ k ≤ s ∧
      (∀ c u, InUse B' c u ↔ c ≠ a ∧ InUse B c u ∨ c = a ∧ u = s) ∧ ∀ w, a < w → w < a + k → dm'.mem w = dm.mem w := by
  have hself := hu
  obtain ⟨⟨n,kind,v⟩,ha,rfl,rfl⟩ := hu
  have hkn : k ≤ n := hkn
  have hsize : mbSize dm.mem a = n := g.heap.mbSize ha (by rintro ⟨⟩)
  have hn8 : 8 ∣ n := g.heap.eights ha
  obtain ⟨y,hy⟩ := g.heap.tiled.next ha (by rintro ⟨⟩)
  have hy : B (a + n) = some y := hy
  have hout : ∀ w, a ≤ w → w < a + n → Outside dm.heads G w := fun w h1 h2 => g.heap.outside ha h1 h2 (by rintro ⟨⟩)
  rw [shrinkAllocBlock]
  dsimp only
  have hunits : k % unitsize = 0 := Nat.mod_eq_zero_of_dvd h8
  rw [hsize,if_neg (not_not.2 hunits)]
  by_cases hsmall : n - k < minsz
  · rw [if_pos (.inr hsmall)]
    exact ⟨_,B,n,rfl,g.heap.shows,hkn,fun c u => hself.self_iff,fun _ _ _ => rfl⟩
  rw [if_neg (by rw [g.init]; simpa using hsmall)]
  by_cases hkeep : dm.mem (a + n) &&& allocBit ≠ 0 ∧ n - k < minAllocShrink
  · rw [if_pos hkeep]
    exact ⟨_,B,n,rfl,g.heap.shows,hkn,fun c u => hself.self_iff,fun _ _ _ => rfl⟩
  rw [if_neg hkeep]
  have hkn : k + 32 ≤ n := by
    have hmin : minsz = 32 := rfl
    lia
  -- the block with the free one behind it, if there is one
  suffices hcut : ∀ B1 t m1, (if dm.mem (a + n) &&& allocBit = 0 then (n - k + mbSize dm.mem (a + n),unlink dm.mem (entry (a + n)))
      else (n - k,dm.mem)) = (t - k,m1) → Tiled P B1 → B1 a = some ⟨t,.used,v⟩ → 8 ∣ t → n ≤ t →
      (∀ c x, c ≠ a → B1 c = some x → B c = some x) → (∀ c u, c ≠ a → (InUse B1 c u ↔ InUse B c u)) →
      (∀ w, Outside dm.heads G w → m1 w = dm.mem w) → Node dm.heads G (setFreeMb m1 (a + k) (t - k) prevAllocBit dm.current) →
      ∃ dm' B' s, (let r := if dm.mem (a + n) &&& allocBit = 0 then (n - k + mbSize dm.mem (a + n),unlink dm.mem (entry (a + n)))
          else (n - k,dm.mem)
        let m2 := link (setFreeMb r.2 (a + k) r.1 prevAllocBit) dm.current (entry (a + k))
        some { dm with mem := put m2 a (k ||| m2 a &&& ctlbmask) }) = some dm' ∧ Shows dm'.mem P B' ∧ k ≤ s ∧
        (∀ c u, InUse B' c u ↔ c ≠ a ∧ InUse B c u ∨ c = a ∧ u = s) ∧ ∀ w, a < w → w < a + k → dm'.mem w = dm.mem w by
    by_cases hf : y.kind = .free
    · obtain ⟨l,r,rfl⟩ : ∃ l r, y = ⟨l,.free,r⟩ := ⟨y.size,y.prev,by rw [← hf]⟩
      have hzero : dm.mem (a + n) &&& allocBit = 0 := (g.heap.alloc_zero hy).2 rfl
      have hl32 : 32 ≤ l := g.heap.size hy (by rintro ⟨⟩)
      have hF : G (entry (a + n)) = some (some ()) := (g.heap.listed _ _).2 (.inr ⟨a + n,_,rfl,hy,rfl,not_false,rfl⟩)
      have hrem := g.heap.rem (K := (· = a + n)) hy rfl not_false fun c => (false_or _).symm ▸ Iff.rfl
      obtain ⟨htiled,huse⟩ := g.heap.tiled.annex ha hy
      have hr2 := hrem.rings.setFreeMb (a := a + k) (n := n + l - k) (hrem.outside ha (Nat.le_add_right a k) (by dsimp only; lia) (by rintro ⟨⟩))
        (hrem.outside hy (by lia) (by dsimp only; lia) fun _ hn => absurd rfl hn) prevAllocBit
      refine hcut _ (n + l) _ (by rw [if_pos hzero,g.heap.mbSize hy (by rintro ⟨⟩),show n - k + l = n + l - k by lia]) htiled (update_self ..)
        (Nat.dvd_add hn8 (g.heap.eights hy)) (Nat.le_add_right n l) (fun c x hca hc => ?_) huse (g.heap.rings.unlink hF).2 ?_
      · rw [update_of_ne hca] at hc
        exact (update_none.1 hc).2
      · by_cases hcur : dm.current = entry (a + n)
        · -- it is off the ring and closed on itself
          have hself : unlink dm.mem (entry (a + n)) (entry (a + n)) = entry (a + n) := by
            rw [unlink,put_ne (by lia),put_self]
          rw [hcur,setFreeMb_frame (by unfold entry unitsize; lia) (by unfold entry unitsize; lia),hself]
          exact .inr ⟨_,hF⟩
        · refine (hr2.next (onRing_move (b := 0) g.cur hcur).1).1.node.imp id ?_
          rintro ⟨j,hj⟩
          by_cases he : setFreeMb (unlink dm.mem (a + n + 8)) (a + k) (n + l - k) prevAllocBit dm.current = a + n + 8
          · rw [he,update_self] at hj
            cases hj
          · rw [update_of_ne he] at hj
            exact ⟨j,hj⟩
    · have hzero : dm.mem (a + n) &&& allocBit ≠ 0 := fun h0 => hf ((g.heap.alloc_zero hy).1 h0)
      refine hcut B n dm.mem (if_neg hzero) g.heap.tiled ha hn8 (Nat.le_refl n) (fun _ _ _ hc => hc) (fun _ _ _ => Iff.rfl) (fun _ _ => rfl) ?_
      exact ((g.heap.rings.setFreeMb (hout _ (by lia) (by lia)) (hout _ (by lia) (by lia)) _).next g.cur).1.node
  intro B1 t m1 hr htiled ha1 ht8 hnt hold huse hm1 hnext
  have hframe := fun w hw hno => carve_frame (w := w) (by lia) hm1 g.cur.node hnext hw hno
  rw [hr]
  dsimp only
  have hlt : t < 2 ^ 64 := by
    obtain ⟨r,hr,h1,-,h2⟩ := htiled.arena ha1
    have h2 : a + t ≤ r.stop := h2 (by rintro ⟨⟩)
    have := g.heap.fits r hr
    have := g.heap.tiled.order r hr
    lia
  have hMa := hframe a (hout a (Nat.le_refl a) (by lia)) (by lia)
  have hrest := hout (a + k) (by lia) (by lia)
  refine ⟨_,_,k,rfl,.cut (k := k) htiled ha1 h8 ht8 hk (by lia) hlt (fun c x hc hca => ?_) ?_ ?_,Nat.le_refl k,
    fun c u => (inUse_cut htiled ha1 hk (by lia)).trans (or_congr_left (and_congr_right fun hca => huse c u hca)),fun w h1 h2 => ?_⟩
  · have hno : ¬(a + k ≤ c ∧ c < a + t) := fun hin =>
      hca (htiled.unique hc ha1 (Nat.le_refl c) (Nat.lt_add_of_pos_right (htiled.pos hc)) (by lia) hin.2).1
    have hcB := hold c x hca hc
    rw [mbSize,hframe c (g.heap.outside_tag hcB) hno]
    exact ⟨fun hx => g.heap.mbSize hcB hx,g.heap.alloc_zero hcB⟩
  · rw [link_frame (by unfold entry unitsize; lia) (by unfold entry unitsize; lia) (hrest _ g.cur.node).1 (hrest _ hnext).2,setFreeMb,
      put_ne (by unfold unitsize; lia),put_self]
    exact or_flags (x := ⟨t - k,.free,true⟩) (Nat.dvd_sub ht8 h8) (by rintro ⟨⟩)
  · rw [hMa,g.heap.tags a _ ha,tag_flags hn8]
    rfl
  · dsimp only
    rw [put_ne (by lia),hframe w (hout w (by lia) (by lia)) (by lia)]

/-! ## A new block -/

/-- A region that `add_mem_func` may give: aligned, and apart from the pools and the heads. -/
structure Region (dm : Dynmem) (P : List Arena) (mem len : ℕ) : Prop where
  aligned : 8 ∣ mem
  fits : mem + len ≤ 2 ^ 64
  apart : ∀ r ∈ P, mem + len ≤ r.base ∨ r.stop + 8 ≤ mem
  heads : ∀ j, dm.heads j + 16 ≤ mem ∨ mem + len ≤ dm.heads j

/-- The pools, with one that `add_mem_func` gave, or without. -/
def Pools (addMem : Option (ℕ → ℕ)) (P Q : List Arena) : Prop :=
  Q = P ∨ ∃ f len, addMem = some f ∧ f len ≠ 0 ∧ Q = poolArena (f len) len :: P

/-- What `dynmem_malloc` asks of `add_mem_func`. -/
def moreamt (amt : ℕ) : ℕ := max ((amt + unitsize + poolSize) % 2 ^ 64) minMoremem

/-- A whole block of `s` bytes at `b` is taken, and `dm_current` is left at `t`: the search finds it, or it is a new pool. -/
def TakesWhole (addMem : Option (ℕ → ℕ)) (dm : Dynmem) (amt b s t : ℕ) : Prop :=
  let found := findFit dm.mem dm.blocks dm.current amt (2 ^ 64) dm.current
  found = some (some b) ∧ s = mbSize dm.mem b ∧ dm.mem (entry b) = t ∨
    found = some none ∧ (∃ f, addMem = some f ∧ f (moreamt amt) ≠ 0 ∧ b = f (moreamt amt) + poolSize) ∧
      s = moreamt amt / unitsize * unitsize - (poolSize + unitsize) ∧ amt ≤ s ∧ dm.current = t

theorem mallocRounded_spec (g : FirstFit P B G dm) (hsup : ∀ f len, addMem = some f → f len ≠ 0 → Region dm P (f len) len) (h8 : 8 ∣ amt)
    (h32 : 32 ≤ amt) (hcall : mallocRounded addMem dm amt = some (p,dm')) :
    (p = 0 ∧ dm' = dm) ∨ ∃ b Q B' G' s, p = b + 8 ∧ FirstFit Q B' G' dm' ∧ Pools addMem P Q ∧ amt ≤ s ∧ Gives B B' dm.mem dm'.mem b s ∧
      (dm'.current = entry (b + s) ∨ s ≤ amt + minsz ∧ TakesWhole addMem dm amt b s dm'.current) := by
  have hnew : ∀ {Q B0 c} {x : Blk}, Tiled Q B0 → B0 c = some x → x.kind = .free → ∀ n, ¬InUse B0 c n := fun ht hc hk n hu =>
    hu.apart ht hc (fun _ he => by rw [hk] at he; cases he) (Nat.le_refl _) (Nat.lt_add_of_pos_right (ht.pos hc)) rfl
  obtain ⟨r,hr,hsome,hnone⟩ := findFit_spec g amt
  unfold mallocRounded at hcall
  rw [hr] at hcall
  cases r with
  | some b =>
    obtain ⟨x,hb,hx,hsize⟩ := hsome b rfl
    obtain ⟨dm1,B1,G1,s,htake,g1,-,-,hs,huse,hheld,hcur⟩ := takeFit_spec g hb hx h8 h32 hsize
    cases htake.symm.trans hcall
    refine .inr ⟨b,P,B1,G1,s,rfl,g1,.inl rfl,hs,⟨hnew g.heap.tiled hb hx,huse,hheld⟩,hcur.imp id fun ⟨hs,hle,hcur⟩ => ⟨hle,.inl ⟨hr,?_,hcur.symm⟩⟩⟩
    rw [hs,g.heap.mbSize hb (by rw [hx]; exact nofun)]
  | none =>
    cases addMem with
    | none =>
      cases hcall
      exact .inl ⟨rfl,rfl⟩
    | some f =>
      obtain ⟨len,hlen⟩ : ∃ len, moreamt amt = len := ⟨_,rfl⟩
      have hlen' : max ((amt + unitsize + poolSize) % 2 ^ 64) minMoremem = len := hlen
      dsimp only [Option.bind_some] at hcall
      rw [hlen'] at hcall
      by_cases hf : f len = 0
      · rw [if_pos hf] at hcall
        cases hcall
        exact .inl ⟨rfl,rfl⟩
      rw [if_neg hf] at hcall
      obtain ⟨h8m,hfit,hapart,hheads⟩ := hsup f len rfl hf
      have hge : 8192 ≤ len := hlen ▸ Nat.le_max_right _ _
      obtain ⟨dm2,B2,G2,hadd,g2,-,-,huse2,hheld2,hfree2⟩ := addPool_spec g
        (show poolSize + unitsize + minsz ≤ len from Nat.le_trans (by decide) hge) h8m
        (Nat.pos_of_ne_zero hf) hfit hapart hheads
      obtain ⟨r2,hr2,hsome2,-⟩ := findFit_spec g2 amt
      rw [hadd,Option.bind_some,hr2,Option.bind_some] at hcall
      cases r2 with
      | none => cases hcall
      | some b =>
        obtain ⟨x,hb,hx,hsize⟩ := hsome2 b rfl
        obtain ⟨dm1,B1,G1,s,htake,g1,-,-,hs,huse,hheld,hcur⟩ := takeFit_spec g2 hb hx h8 h32 hsize
        cases htake.symm.trans hcall
        refine .inr ⟨b,_,B1,G1,s,rfl,g1,.inr ⟨f,len,rfl,hf,rfl⟩,hs,⟨fun n hu => hnew g2.heap.tiled hb hx n ((huse2 b n).2 hu),
          fun c n => (huse c n).trans (or_congr_left (huse2 c n)),fun c s w hu h1 h2 => ?_⟩,
          hcur.imp id fun ⟨hs,hle,hcur⟩ => ⟨hle,.inr ⟨hr,⟨f,rfl,by rwa [hlen],?_⟩,?_,?_,?_⟩⟩⟩
        · rw [hheld c s w ((huse2 c s).2 hu) h1 h2,hheld2 c s w hu h1 h2]
        all_goals
          -- no other block is large enough
          obtain ⟨rfl,hlink,hlong⟩ := (hfree2 b x hb hx).resolve_left fun ⟨u,hu,hk,hsu⟩ => by
            have := hnone rfl b u hu hk
            lia
        · rw [hlen]
        · obtain ⟨r,hr,h1,-,h2⟩ := g2.heap.tiled.arena hb
          have h2 := h2 (by rw [hx]; exact nofun)
          have hdvd := g2.heap.eights hb
          have ho := g2.heap.tiled.order r hr
          have hpos := g2.heap.tiled.pos hb
          obtain rfl : r = poolArena (f len) len := by
            refine g2.heap.tiled.meet hr List.mem_cons_self (w := f len + poolSize) (by lia) (by lia) (Nat.le_add_right _ _) ?_
            change f len + 40 < f len + len / 8 * 8 - 8 + 8
            lia
          have h2 : f len + 40 + x.size ≤ f len + len / 8 * 8 - 8 := h2
          unfold unitsize poolSize
          lia
        · lia
        · rw [hcur,hlink]

theorem copy_shows {B1 : Layout} {dm1 : Dynmem} (g1 : FirstFit Q B1 G dm1) (hgives : Gives B B1 M dm1.mem b s) (hu : InUse B a n)
    (hns : n + 8 ≤ s)
    (hsafe : ∀ x y, B1 a = some x → x.prev = true → B1 (a + n) = some y → y.kind = .free → dm1.current ≠ entry (a + n)) :
    ∃ B' dm', dynmemFree { dm1 with mem := memcpy dm1.mem (b + 8) (a + 8) n } (a + 8) = dm' ∧ Shows dm'.mem Q B' ∧
      (∀ c u, InUse B' c u ↔ c ≠ a ∧ InUse B c u ∨ c = b ∧ u = s) ∧ ∀ w < n - 8, dm'.mem (b + 8 + w) = M (a + 8 + w) := by
  have hu1 : InUse B1 a n := (hgives.used a n).2 (.inl hu)
  have hub : InUse B1 b s := (hgives.used b s).2 (.inr ⟨rfl,rfl⟩)
  have hba : b ≠ a := by
    rintro rfl
    exact hgives.new n hu
  obtain ⟨d,hd⟩ : ∃ d, ({ dm1 with mem := memcpy dm1.mem (b + 8) (a + 8) n } : Dynmem) = d := ⟨_,rfl⟩
  have g2 : FirstFit Q B1 G d := by
    rw [← hd]
    refine g1.client fun w hw => ⟨b,s,hub,?_⟩
    rw [memcpy] at hw
    by_cases hin : b + 8 ≤ w ∧ w < b + 8 + n
    · lia
    · rw [if_neg hin] at hw
      exact absurd rfl hw
  have hbytes : ∀ w < n - 8, d.mem (b + 8 + w) = M (a + 8 + w) := by
    intro w hw
    rw [← hd]
    dsimp only
    rw [memcpy,if_pos (by lia),show a + 8 + (b + 8 + w - (b + 8)) = a + 8 + w by lia]
    exact hgives.held a n _ hu (by lia) (by lia)
  have hcur : d.current = dm1.current := by rw [← hd]
  rw [hd]
  obtain ⟨x,ha,hk,rfl⟩ := id hu1
  have hx : x.kind ≠ .fence := by rw [hk]; rintro ⟨⟩
  have hhole := g2.heap.unuse (K := (· = a)) ha hk fun c => (false_or _).symm ▸ Iff.rfl
  obtain ⟨c,t,m1,B2,G2,he,hj⟩ := coalesce_joins hhole ha hx
  have huse : ∀ c u, InUse B2 c u ↔ c ≠ a ∧ InUse B c u ∨ c = b ∧ u = s := by
    intro c u
    rw [hj.used,hgives.used]
    constructor
    · rintro ⟨h | h,hca⟩
      · exact .inl ⟨hca,h⟩
      · exact .inr h
    · rintro (⟨hca,h⟩ | h)
      · exact ⟨.inl h,hca⟩
      · exact ⟨.inr h,by rw [h.1]; exact hba⟩
  by_cases hin : d.current ≥ c ∧ d.current < c + t
  · -- `dm_current` is on a free neighbour, and it is not the one behind
    obtain ⟨e,u,hc,hf,hce,hnear⟩ := hj.near _ g2.cur hin.1 hin.2
    have hprev : x.prev = false := by
      cases hp : x.prev with
      | false => rfl
      | true =>
        rcases hnear with hea | rfl
        · have huf : u.kind ≠ .fence := by rw [hf]; rintro ⟨⟩
          have := (g2.heap.after e u x hc huf not_false (by rw [hea]; exact ha)).1 hp
          rw [hf] at this
          cases this
        · exact absurd (hcur.symm.trans hce) (hsafe x u ha hp hc hf)
    refine ⟨B2,_,rfl,?_,huse,fun w hw => ?_⟩
    · rw [hj.stray g2.init he hin hprev]
      exact hj.heap.shows
    · rw [hj.stray g2.init he hin hprev,hj.held b s _ hub hba (by lia) (by lia)]
      exact hbytes w hw
  · obtain ⟨G3,g3,-,-,hheld,-⟩ := hj.put g2.cur g2.init he hin
    refine ⟨B2,_,rfl,g3.heap.shows,huse,fun w hw => ?_⟩
    rw [hheld b s _ hub hba (by lia) (by lia)]
    exact hbytes w hw

/-! ## The call -/

/-- The block at `b` comes for that at `a`: it has room for the amount, lies in a pool and apart from every other block, in use or free,
and starts with what the old one started with. -/
structure Reseats (Q : List Arena) (B B' : Layout) (m m' : Mem) (a n newamt b s : ℕ) : Prop where
  shows : Shows m' Q B'
  used : ∀ c u, InUse B' c u ↔ c ≠ a ∧ InUse B c u ∨ c = b ∧ u = s
  room : newamt + 8 ≤ s
  inside : ∃ r ∈ Q, r.start ≤ b ∧ b + s ≤ r.stop
  apart : ∀ c x, B' c = some x → c ≠ b → c + x.size ≤ b ∨ b + s ≤ c
  bytes : ∀ w < min (n - 8) newamt, m' (b + 8 + w) = m (a + 8 + w)

theorem Shows.reseats (h : Shows m' Q B') (hused : ∀ c u, InUse B' c u ↔ c ≠ a ∧ InUse B c u ∨ c = b ∧ u = s) (hroom : newamt + 8 ≤ s)
    (hbytes : ∀ w < min (n - 8) newamt, m' (b + 8 + w) = m (a + 8 + w)) : Reseats Q B B' m m' a n newamt b s := by
  obtain ⟨y,hb,hk,rfl⟩ := (hused b s).2 (.inr ⟨rfl,rfl⟩)
  refine ⟨h,hused,hroom,?_,fun c x hc hcb => ?_,hbytes⟩
  · obtain ⟨r,hr,h1,-,h2⟩ := h.tiled.arena hb
    exact ⟨r,hr,h1,h2 (by rw [hk]; exact nofun)⟩
  · rcases Nat.lt_or_gt_of_ne hcb with hlt | hlt
    · exact .inl (h.tiled.apart c x b y hc hb hlt)
    · exact .inr (h.tiled.apart b y c x hb hc hlt)

/-- What is asked of the call: null and the heap as it was, or a block for the old one. -/
def ReallocMeets (addMem : Option (ℕ → ℕ)) (P : List Arena) (B : Layout) (dm : Dynmem) (a n newamt : ℕ) : Prop :=
  ∀ q dm', dynmemRealloc addMem dm (a + 8) newamt = some (q,dm') → (q = 0 → dm' = dm) ∧
    (q ≠ 0 → ∃ b Q B' s, q = b + 8 ∧ Pools addMem P Q ∧ Reseats Q B B' dm.mem dm'.mem a n newamt b s)

/-- The next block is cut, and what is joined on of it is too little. -/
def Undercuts (dm : Dynmem) (mb need : ℕ) : Prop :=
  let next := mb + mbSize dm.mem mb
  let rest := mbSize dm.mem mb + mbSize dm.mem next - need
  mbSize dm.mem mb < need ∧ dm.mem next &&& allocBit = 0 ∧ need ≤ mbSize dm.mem mb + mbSize dm.mem next ∧
    mbSize dm.mem next > rest + minsz ∧ mbSize dm.mem mb + rest < need

/-- The block moves, and then `dm_current` is on the free block behind it, where the one before is in use. -/
def Strays (addMem : Option (ℕ → ℕ)) (dm : Dynmem) (mb need : ℕ) : Prop :=
  let next := mb + mbSize dm.mem mb
  mbSize dm.mem mb < need ∧ dm.mem next &&& allocBit = 0 ∧ mbSize dm.mem mb + mbSize dm.mem next < need ∧
    ∃ b s, TakesWhole addMem dm (need + unitsize) b s (entry next) ∧ s ≤ need + unitsize + minsz ∧
      (b + s = mb ∨ dm.mem mb &&& prevAllocBit ≠ 0)

theorem Heap.free_before (h : Heap cls head P B (fun _ => False) m F) (ha : B a = some x) (hp : x.prev = false) :
    ∃ e y, B e = some y ∧ y.kind = .free ∧ e + y.size = a := by
  have hfirst : ∀ r ∈ P, a ≠ r.start := by
    rintro r hr rfl
    rw [h.first r hr x ha] at hp
    cases hp
  obtain ⟨e,y,he,hea,hy⟩ := h.tiled.prior ha hfirst
  refine ⟨e,y,he,?_,hea⟩
  have hafter := h.after e y x he hy not_false (by rw [hea]; exact ha)
  cases hkind : y.kind with
  | free => rfl
  | used => rw [hafter.2 hkind] at hp; cases hp
  | fence => exact absurd hkind hy

theorem Gives.next_free {B1 : Layout} (hQ : Pools addMem P Q) (ht : Tiled P B) (ht1 : Tiled Q B1) (hgives : Gives B B1 m m' b s)
    (hu : InUse B a n) (hy : B1 (a + n) = some y) (hf : y.kind = .free) : ∃ z, B (a + n) = some z ∧ z.kind = .free := by
  obtain ⟨x,ha,hk,rfl⟩ := hu
  obtain ⟨z,hz⟩ := ht.next ha (by rw [hk]; exact nofun)
  refine ⟨z,hz,?_⟩
  cases hkz : z.kind with
  | free => rfl
  | used =>
    obtain ⟨z',hz',hk',-⟩ := (hgives.used _ _).2 (.inl ⟨z,hz,hkz,rfl⟩)
    cases hz'.symm.trans hy
    rw [hf] at hk'
    cases hk'
  | fence =>
    obtain ⟨-,r,hr,-,hstop,-⟩ := ht.within _ z hz
    have hrQ : r ∈ Q := by
      rcases hQ with rfl | ⟨f,len,-,-,rfl⟩
      · exact hr
      · exact List.mem_cons_of_mem _ hr
    obtain ⟨w,hw,hkw⟩ := ht1.last hrQ
    rw [← (hstop hkz).1] at hw
    cases hw.symm.trans hy
    rw [hf] at hkw
    cases hkw

theorem Gives.prev_used {B1 : Layout} {m1 : Mem} {head1 : Option ι → ℕ} {F1 : ℕ → Option (Option ι)} (hQ : Pools addMem P Q)
    (h : Heap cls head P B (fun _ => False) m F) (h1 : Heap cls head1 Q B1 (fun _ => False) m1 F1) (hgives : Gives B B1 m m1 b s) (hu : InUse B a n) (hx : B1 a = some x)
    (hp : x.prev = true) : b + s = a ∨ m a &&& prevAllocBit ≠ 0 := by
  obtain ⟨x0,ha,-,-⟩ := hu
  refine or_iff_not_imp_right.2 fun hzero => ?_
  obtain ⟨e,y,he,hf,hea⟩ := h.free_before ha ((h.prev_zero ha).1 (not_not.1 hzero))
  have hpos := h.tiled.pos he
  obtain ⟨r,hr,hstart,-,hstop⟩ := h.tiled.arena he
  have hstop := hstop (by rw [hf]; exact nofun)
  have hrQ : r ∈ Q := by
    rcases hQ with rfl | ⟨f,len,-,-,rfl⟩
    · exact hr
    · exact List.mem_cons_of_mem _ hr
  have hfirst : ∀ r' ∈ Q, a ≠ r'.start := by
    rintro r' hr' rfl
    have ho := h1.tiled.order r hrQ
    have ho' := h1.tiled.order r' hr'
    obtain rfl := h1.tiled.meet hrQ hr' (w := r'.start) (by lia) (by lia) (by lia) (by lia)
    lia
  obtain ⟨e1,y1,he1,hea1,hy1⟩ := h1.tiled.prior hx hfirst
  have hused := (h1.after e1 y1 x he1 hy1 not_false (by rw [hea1]; exact hx)).1 hp
  have hpos1 := h1.tiled.pos he1
  rcases (hgives.used e1 y1.size).1 ⟨y1,he1,hused,rfl⟩ with ⟨z,hz,hkz,hsz⟩ | ⟨rfl,hsz⟩
  · -- the block that ends there was free
    obtain ⟨-,rfl⟩ := h.tiled.unique hz he (w := a - 1) (by lia) (by lia) (by lia) (by lia)
    rw [hf] at hkz
    cases hkz
  · lia

theorem realloc_meets (g : FirstFit P B G dm) (hu : InUse B a n) (h0 : newamt ≠ 0)
    (hsup : ∀ f len, addMem = some f → f len ≠ 0 → Region dm P (f len) len)
    (hgood : ¬(round2u newamt < newamt ∨ round2u newamt > maxAlloc - unitsize) → ¬Undercuts dm a (round2u newamt + unitsize) ∧
      ¬Strays addMem dm a (round2u newamt + unitsize)) : ReallocMeets addMem P B dm a n newamt := by
  intro q dm' hcall
  have hnull : ∀ {d : Dynmem}, (0,dm) = (q,d) → (q = 0 → d = dm) ∧
      (q ≠ 0 → ∃ b Q B' s, q = b + 8 ∧ Pools addMem P Q ∧ Reseats Q B B' dm.mem d.mem a n newamt b s) := by
    intro d he
    cases he
    exact ⟨fun _ => rfl,fun h => absurd rfl h⟩
  by_cases hout : round2u newamt < newamt ∨ round2u newamt > maxAlloc - unitsize
  · rw [dynmemRealloc,if_neg h0,if_neg (Nat.succ_ne_zero _)] at hcall
    dsimp only at hcall
    rw [if_pos hout] at hcall
    exact hnull (Option.some.inj hcall)
  obtain ⟨hcuts,hstrays⟩ := hgood hout
  obtain ⟨k,hk⟩ : ∃ k, round2u newamt + unitsize = k := ⟨_,rfl⟩
  obtain ⟨hk8,hk1,hk2,hklt⟩ := realloc_need hout hk
  rw [dynmemRealloc_eq g hu h0 hout hk] at hcall
  rw [hk] at hcuts hstrays
  have hsize := g.heap.inUse_size hu
  by_cases hfits : k ≤ n
  · obtain ⟨dm1,B1,s,hshrink,hshows,hks,huse,hheld⟩ := shrink_shows g hu hk8 (by lia) hfits
    rw [if_pos hfits,hshrink] at hcall
    cases hcall
    exact ⟨fun h => absurd h (Nat.succ_ne_zero _),fun _ => ⟨a,P,B1,s,rfl,.inl rfl,hshows.reseats huse (by lia)
      fun w hw => hheld _ (by lia) (by lia)⟩⟩
  rw [if_neg hfits] at hcall
  rw [Undercuts,hsize] at hcuts
  rw [Strays,hsize] at hstrays
  by_cases hgrow : dm.mem (a + n) &&& allocBit = 0 ∧ n + mbSize dm.mem (a + n) ≥ k
  · obtain ⟨l,hl⟩ : ∃ l, mbSize dm.mem (a + n) = l := ⟨_,rfl⟩
    rw [if_pos hgrow] at hcall
    rw [hl] at hcuts hgrow
    have hmin : minsz = 32 := rfl
    have henough : l > n + l - k + minsz → k ≤ n + (n + l - k) := fun hcut =>
      Nat.not_lt.1 fun hless => hcuts ⟨by lia,hgrow.1,hgrow.2,hcut,hless⟩
    obtain ⟨m1,B1,G1,s,hgrown,hheap,-,hs,huse,hheld⟩ := growBlock_heap g hu hgrow.1 hk8 (by lia) hl hgrow.2
      fun hcut => by have := henough hcut; lia
    cases hgrown.symm.trans hcall
    refine ⟨fun h => absurd h (Nat.succ_ne_zero _),fun _ => ⟨a,P,B1,s,rfl,.inl rfl,hheap.shows.reseats huse ?_
      fun w hw => hheld _ (by lia) (by lia)⟩⟩
    rw [hs]
    split
    · rename_i hcut
      have := henough hcut
      lia
    · lia
  rw [if_neg hgrow] at hcall
  obtain ⟨⟨p,dm1⟩,hmalloc,hrest⟩ := Option.map_eq_some_iff.1 hcall
  rcases dynmemMalloc_eq g.init (show k < 2 ^ 64 by lia) with ⟨-,hno⟩ | ⟨k',hk8',h32,hle,hleast,hround⟩
  · rw [hno] at hmalloc
    cases hmalloc
    exact hnull hrest
  have h32n : 32 ≤ n := by
    obtain ⟨x,ha,hx,rfl⟩ := hu
    exact g.heap.size ha (by rw [hx]; rintro ⟨⟩)
  have hk' : k' = k + unitsize := by
    have hunit : unitsize = 8 := rfl
    by_contra hne
    have := hleast (k + 8) (Nat.dvd_add hk8 (by decide)) (by lia) (by lia)
    lia
  rw [hround] at hmalloc
  rcases mallocRounded_spec g hsup hk8' h32 hmalloc with ⟨rfl,rfl⟩ | ⟨b,Q,B1,G1,s,rfl,g1,hQ,hs,hgives,hcur⟩
  · exact hnull hrest
  have hsize1 : mbSize dm1.mem a = n := g1.heap.inUse_size ((hgives.used a n).2 (.inl hu))
  obtain ⟨B2,dm2,hfree,hshows,huse,hbytes⟩ := copy_shows g1 hgives hu (by lia) fun x y hx hp hy hf hce => by
    have hu1 := (hgives.used a n).2 (.inl hu)
    have hub := (hgives.used b s).2 (.inr ⟨rfl,rfl⟩)
    obtain ⟨z,hz,hkz⟩ := hgives.next_free hQ g.heap.tiled g1.heap.tiled hu hy hf
    have hzero := (g.heap.alloc_zero hz).2 hkz
    rcases hcur with hcur | ⟨hle,hwhole⟩
    · -- the remainder of a block that is cut is not behind the old block
      have hend : b + s + 8 = a + n + 8 := hcur.symm.trans hce
      have hba : b ≠ a := fun he => hgives.new n (he ▸ hu)
      have hn0 : 0 < n := by obtain ⟨x,ha,-,rfl⟩ := hu; exact g.heap.tiled.pos ha
      have := g1.heap.tiled.inUse_apart hub hu1 hba
      lia
    · rw [hce] at hwhole
      refine hstrays ⟨by lia,hzero,?_,b,s,by rw [← hk']; exact hwhole,by rw [← hk']; exact hle,
        hgives.prev_used hQ g.heap g1.heap hu hx hp⟩
      by_contra hno
      exact hgrow ⟨hzero,by lia⟩
  dsimp only at hrest
  rw [if_neg (Nat.succ_ne_zero _),hsize1,hfree] at hrest
  cases hrest
  exact ⟨fun h => absurd h (Nat.succ_ne_zero _),fun _ => ⟨b,Q,B2,s,rfl,hQ,hshows.reseats huse (by lia) fun w hw => hbytes w (by lia)⟩⟩

theorem growBlock_zero (g : FirstFit P B G dm) (hu : InUse B a n) (hzero : dm.mem (a + n) &&& allocBit = 0)
    (hall : n + mbSize dm.mem (a + n) = k) (hcut : mbSize dm.mem (a + n) > minsz) :
    ∃ dm', growBlock dm a (a + n) k = some (a + 8,dm') ∧ mbSize dm'.mem a = n := by
  have hself := g.heap.inUse_size hu
  obtain ⟨x,ha,hk,rfl⟩ := id hu
  have hx : x.kind ≠ .fence := by rw [hk]; exact nofun
  have h32 := g.heap.size ha hx
  obtain ⟨y,hy⟩ := g.heap.tiled.next ha hx
  have hf : y.kind = .free := (g.heap.alloc_zero hy).1 hzero
  have hyf : y.kind ≠ .fence := by rw [hf]; exact nofun
  have hl := g.heap.mbSize hy hyf
  have hl32 := g.heap.size hy hyf
  have hF : G (entry (a + x.size)) = some (some ()) := (g.heap.listed _ _).2 (.inr ⟨_,y,rfl,hy,hf,not_false,rfl⟩)
  have hnext := (g.heap.rings.next (.inr hF)).1
  have hout := g.heap.outside_tag ha
  have hflags : dm.mem (a + x.size) &&& ctlbmask = prevAllocBit := by
    rw [g.heap.tags _ y hy,tag_flags (g.heap.eights hy),flags,if_pos hf,g.heap.alone _ y hy hf not_false]
    rfl
  obtain ⟨ms,hms⟩ : ∃ ms, setFreeMb (link (setFreeMb dm.mem (a + x.size) y.size prevAllocBit) (entry (a + x.size)) (entry (a + x.size)))
      (a + x.size) 0 prevAllocBit = ms := ⟨_,rfl⟩
  have he : entry (a + x.size) = a + x.size + 8 := rfl
  have hz : setFreeMb dm.mem (a + x.size) y.size prevAllocBit (entry (a + x.size)) = dm.mem (entry (a + x.size)) :=
    setFreeMb_frame (by lia) (by lia) _
  have hne := g.heap.rings.next_ne hF
  have hapart := g.heap.rings.apart _ _ (.inr ⟨_,hF⟩) hnext.node
  unfold Apart at hapart
  -- the node is put behind itself
  have hms1 : ms (entry (a + x.size)) = entry (a + x.size) ∧ ms (entry (a + x.size) + 8) = entry (a + x.size) := by
    rw [← hms,setFreeMb_frame (by lia) (by lia),setFreeMb_frame (by lia) (by lia),link,hz]
    refine ⟨?_,?_⟩
    · rw [put_ne (by lia),put_self]
    · rw [put_ne (by lia),put_ne (by lia),put_self]
  have hmsa : ms a = dm.mem a := by
    rw [← hms,setFreeMb_frame (by lia) (by lia),link_frame (by lia) (by lia) (by lia) ?_,setFreeMb_frame (by lia) (by lia)]
    rw [hz]
    exact (hout _ hnext.node).2
  have hmsc : ms (a + x.size) = prevAllocBit := by
    rw [← hms,setFreeMb,put_ne (by unfold unitsize; lia),put_self]
    rfl
  have hrest : x.size + y.size - k = 0 := by lia
  have hun : ∀ w, w ≠ entry (a + x.size) → w ≠ entry (a + x.size) + 8 → unlink ms (entry (a + x.size)) w = ms w := fun w h1 h2 =>
    unlink_frame h1 h2 (by rw [hms1.2]; exact h1) (by rw [hms1.1]; exact h2)
  have hempty : mbSize (unlink ms (entry (a + x.size))) (a + x.size) = 0 := by
    rw [mbSize,hun _ (by lia) (by lia),hmsc]
    decide
  rw [growBlock,hself,hl]
  dsimp only
  rw [hrest,if_pos (by lia),splitBlock,if_neg (by decide)]
  dsimp only
  rw [hflags,hl,Nat.add_zero,Nat.sub_zero,hms,Option.map_some]
  refine ⟨_,rfl,?_⟩
  dsimp only
  rw [hempty,Nat.add_zero,hun _ (by lia) (by lia),hmsc]
  have hsame : mbSize (put (unlink ms (entry (a + x.size))) (a + x.size) (prevAllocBit ||| prevAllocBit)) (a + x.size) = 0 := by
    rw [mbSize,put_self]
    decide
  rw [hsame,mbSize,put_self,put_ne (by lia),hun _ (by lia) (by lia),hmsa,Nat.add_zero]
  exact hself

/-- `dynmem_realloc` of a live block does what is asked where it neither undercuts nor strays. Where it undercuts it does not, if what
is left of the next block is a block or nothing. -/
theorem dynmemRealloc_meets (g : FirstFit P B G dm) (hu : InUse B a n) (h0 : 0 < newamt)
    (hsup : ∀ f len, addMem = some f → f len ≠ 0 → Region dm P (f len) len) :
    ((¬(round2u newamt < newamt ∨ round2u newamt > maxAlloc - unitsize) → ¬Undercuts dm a (round2u newamt + unitsize) ∧
      ¬Strays addMem dm a (round2u newamt + unitsize)) → ReallocMeets addMem P B dm a n newamt) ∧
    (¬(round2u newamt < newamt ∨ round2u newamt > maxAlloc - unitsize) → Undercuts dm a (round2u newamt + unitsize) →
      (let rest := n + mbSize dm.mem (a + n) - (round2u newamt + unitsize); rest = 0 ∨ minsz ≤ rest) →
      ¬ReallocMeets addMem P B dm a n newamt) := by
  refine ⟨fun hgood => realloc_meets g hu (Nat.ne_of_gt h0) hsup hgood,fun hout hcuts hrest hmeets => ?_⟩
  obtain ⟨k,hk⟩ : ∃ k, round2u newamt + unitsize = k := ⟨_,rfl⟩
  obtain ⟨hk8,hk1,hk2,hklt⟩ := realloc_need hout hk
  have hsize := g.heap.inUse_size hu
  rw [hk,Undercuts,hsize] at hcuts
  rw [hk] at hrest
  obtain ⟨hnk,hzero,hfit,hcut,hless⟩ := hcuts
  obtain ⟨l,hl⟩ : ∃ l, mbSize dm.mem (a + n) = l := ⟨_,rfl⟩
  rw [hl] at hfit hcut hless hrest
  have hmin : minsz = 32 := rfl
  obtain ⟨dm',hcall,hshort⟩ : ∃ dm', growBlock dm a (a + n) k = some (a + 8,dm') ∧ mbSize dm'.mem a = n + (n + l - k) := by
    rcases hrest with hrest | hrest
    · obtain ⟨dm',hcall,hn⟩ := growBlock_zero (k := k) g hu hzero (by rw [hl]; omega) (by rw [hl]; omega)
      exact ⟨dm',hcall,by rw [hn]; omega⟩
    · obtain ⟨m1,B1,G1,s,hcall,hheap,-,hs,huse,-⟩ := growBlock_heap g hu hzero hk8 hnk hl hfit fun _ => hrest
      rw [if_pos hcut] at hs
      exact ⟨_,hcall,hs ▸ hheap.inUse_size ((huse a s).2 (.inr ⟨rfl,rfl⟩))⟩
  have hrealloc := dynmemRealloc_eq g hu (Nat.ne_of_gt h0) hout hk addMem
  rw [if_neg (Nat.not_le.2 hnk),hl,if_pos ⟨hzero,hfit⟩,hcall] at hrealloc
  obtain ⟨b,Q,B',s,hb,-,hseat⟩ := (hmeets _ _ hrealloc).2 (Nat.succ_ne_zero _)
  obtain rfl : a = b := by omega
  obtain ⟨x,hx,hxk,hxs⟩ := (hseat.used a s).2 (.inr ⟨rfl,rfl⟩)
  have hseen := hseat.shows.size a x hx (by rw [hxk]; exact nofun)
  have hroom := hseat.room
  have hn8 : 8 ∣ n := by
    obtain ⟨z,hz,-,rfl⟩ := hu
    exact g.heap.eights hz
  have hl8 : 8 ∣ n + l := by
    obtain ⟨z,hz,hzk,rfl⟩ := id hu
    obtain ⟨y,hy⟩ := g.heap.tiled.next hz (by rw [hzk]; exact nofun)
    have hf := (g.heap.alloc_zero hy).1 hzero
    rw [g.heap.mbSize hy (by rw [hf]; exact nofun)] at hl
    exact Nat.dvd_add hn8 (hl ▸ g.heap.eights hy)
  omega

theorem oneUsed : ∃ s, ((dmStart (fun _ => 0) 8).call (.addPool 64 256)).bind (·.call (.malloc 8)) = some s ∧ s.Good ∧ s.live 112 = some 8 := by
  have hstart : (dmStart (fun _ => 0) 8).Good := dmStart_good (by decide)
  have hproper : (dmStart (fun _ => 0) 8).Proper (.addPool 64 256) := by
    refine ⟨by decide,by decide,by decide,by decide,nofun,fun j => ?_⟩
    match j with
    | none => decide
    | some () => decide
  obtain ⟨s1,h1,hgood1⟩ := good_addPool hstart hproper (by decide : poolSize + unitsize + minsz ≤ 256)
  obtain ⟨s2,h2,hgood2⟩ := good_malloc hgood1 (show s1.Proper (.malloc 8) from (by decide : 8 < 2 ^ 64))
  refine ⟨s2,by rw [h1]; exact h2,hgood2,?_⟩
  have hlive : (((dmStart (fun _ => 0) 8).call (.addPool 64 256)).bind (·.call (.malloc 8))).map (·.live 112) = some (some 8) := by
    decide +kernel
  rw [h1] at hlive
  change (s1.call (.malloc 8)).map (·.live 112) = some (some 8) at hlive
  rw [h2] at hlive
  exact Option.some.inj hlive

theorem dynmemRealloc_meets_8 : ∃ P B G dm a n, FirstFit P B G dm ∧ InUse B a n ∧ ReallocMeets none P B dm a n 8 := by
  obtain ⟨s,-,⟨B,G,g,hserves⟩,hlive⟩ := oneUsed
  obtain ⟨c,n,-,hu,-⟩ := hserves.block hlive
  have hsup : ∀ f len, (none : Option (ℕ → ℕ)) = some f → f len ≠ 0 → Region s.dm s.arenas (f len) len := nofun
  refine ⟨_,B,G,s.dm,c,n,g,hu,(dynmemRealloc_meets g hu (by decide) hsup).1 fun _ => ?_⟩
  have hneed : round2u 8 + unitsize = 16 := by decide
  have h32 : 32 ≤ n := by
    obtain ⟨x,hx,hk,rfl⟩ := hu
    exact g.heap.size hx (by rw [hk]; exact nofun)
  rw [hneed,Undercuts,Strays,g.heap.inUse_size hu]
  exact ⟨fun h => absurd h.1 (by omega),fun h => absurd h.1 (by omega)⟩

/-- For 150 bytes the block gets the 48 bytes that should be left, not the 128 that it needs. -/
theorem dynmemRealloc_short : ¬∀ P B G dm a n newamt (addMem : Option (ℕ → ℕ)), FirstFit P B G dm → InUse B a n → 0 < newamt →
    (∀ f len, addMem = some f → f len ≠ 0 → Region dm P (f len) len) → ReallocMeets addMem P B dm a n newamt := by
  intro h
  obtain ⟨s,hs,⟨B,G,g,hserves⟩,hlive⟩ := oneUsed
  obtain ⟨c,n,hc,hu,-⟩ := hserves.block hlive
  obtain rfl : c = 104 := by omega
  have hcall : (((dmStart (fun _ => 0) 8).call (.addPool 64 256)).bind (·.call (.malloc 8))).bind
      (fun s => (dynmemRealloc none s.dm 112 150).map fun r => (r.1,mbSize r.2.mem 104)) = some (112,80) := by
    decide +kernel
  rw [hs] at hcall
  obtain ⟨⟨q,dm'⟩,hq,hval⟩ := Option.map_eq_some_iff.1 hcall
  obtain ⟨rfl,hsize⟩ := Prod.mk.inj hval
  have hsup : ∀ f len, (none : Option (ℕ → ℕ)) = some f → f len ≠ 0 → Region s.dm s.arenas (f len) len := nofun
  obtain ⟨b,Q,B',t,hb,-,hseat⟩ := (h _ B G s.dm 104 n 150 none g hu (by decide) hsup 112 dm' hq).2 (by decide)
  obtain rfl : 104 = b := by omega
  obtain ⟨x,hx,hk,rfl⟩ := (hseat.used 104 t).2 (.inr ⟨rfl,rfl⟩)
  have hseen := hseat.shows.size 104 x hx (by rw [hk]; exact nofun)
  have hroom := hseat.room
  dsimp only at hsize
  omega

end Catlib.Alloc
