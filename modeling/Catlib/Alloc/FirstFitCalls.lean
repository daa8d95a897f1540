import Catlib.Alloc.FirstFitSteps
import Mathlib.Data.List.Perm.Subperm

/-! # The calls of the first-fit heap

What each call does to a heap between two calls, and when.
-/
namespace Catlib.Alloc

open Function

variable {P : List Arena} {B B' : Layout} {m : Mem} {F : ℕ → Option (Option Unit)} {a b c k n p amt blocks : ℕ} {rs : List ℕ}
  {x y : Blk} {dm dm' : Dynmem}

/-! ## The search -/

theorem findFit_walk (hl : Linked m (p :: rs ++ [c])) (hc : c ∉ rs) (hn : rs.length < n) :
    ∃ r, findFit m blocks c amt n p = some r ∧
      (∀ b, r = some b → ∃ t ∈ p :: rs, t ≠ blocks ∧ b = t - unitsize ∧ amt ≤ mbSize m b) ∧
      (r = none → ∀ t ∈ p :: rs, t ≠ blocks → mbSize m (t - unitsize) < amt) := by
  induction rs generalizing p n with
  | nil =>
    obtain ⟨n,rfl⟩ := Nat.exists_eq_succ_of_ne_zero (Nat.ne_of_gt hn)
    have hp : m p = c := (List.isChain_cons_cons.1 hl).1.1
    rw [findFit]
    split
    · rename_i hfit
      exact ⟨_,rfl,fun b hb => ⟨p,List.mem_cons_self,hfit.1,(Option.some.inj hb).symm,Option.some.inj hb ▸ hfit.2⟩,nofun⟩
    · rename_i hfit
      rw [if_neg (not_not.2 hp)]
      refine ⟨none,rfl,nofun,fun _ t ht htb => ?_⟩
      obtain rfl := List.mem_singleton.1 ht
      exact Nat.lt_of_not_le fun h => hfit ⟨htb,h⟩
  | cons q rs ih =>
    obtain ⟨n,rfl⟩ := Nat.exists_eq_succ_of_ne_zero (Nat.ne_of_gt (Nat.lt_of_le_of_lt (Nat.zero_le _) hn))
    obtain ⟨⟨hp,-⟩,hl⟩ := List.isChain_cons_cons.1 hl
    rw [List.mem_cons,not_or] at hc
    rw [findFit,hp,if_pos (Ne.symm hc.1)]
    split
    · rename_i hfit
      exact ⟨_,rfl,fun b hb => ⟨p,List.mem_cons_self,hfit.1,(Option.some.inj hb).symm,Option.some.inj hb ▸ hfit.2⟩,nofun⟩
    · rename_i hfit
      obtain ⟨r,hr,hsome,hnone⟩ := ih hl hc.2 (Nat.lt_of_succ_lt_succ hn)
      refine ⟨r,hr,fun b hb => ?_,fun hr t ht htb => ?_⟩
      · obtain ⟨t,ht,h⟩ := hsome b hb
        exact ⟨t,List.mem_cons_of_mem _ ht,h⟩
      · rcases List.mem_cons.1 ht with rfl | ht
        · exact Nat.lt_of_not_le fun h => hfit ⟨htb,h⟩
        · exact hnone hr t ht htb

theorem FirstFit.walk (g : FirstFit P B F dm) : ∃ rs, Linked dm.mem (dm.current :: rs ++ [dm.current]) ∧ dm.current ∉ rs ∧
    rs.length < 2 ^ 64 ∧ ∀ t, t ∈ dm.current :: rs ↔ OnRing dm.heads F (some ()) t := by
  obtain ⟨L,hL⟩ := g.heap.rings.lists
  obtain ⟨hring,hnodup,hmem⟩ := hL (some ())
  have hhead := g.heap.rings.head_nodup (i := some ()) hL
  have hall : ∀ t, t ∈ dm.heads (some ()) :: L (some ()) ↔ OnRing dm.heads F (some ()) t := fun t => by
    rw [List.mem_cons,hmem,OnRing]
  have hlen : (L (some ())).length < 2 ^ 64 := by
    have hsub : L (some ()) ⊆ List.range (2 ^ 64 - 1) := by
      intro t ht
      rcases (g.heap.listed t _).1 ((hmem t).1 ht) with ⟨hno,-⟩ | ⟨a,x,rfl,ha,hk,-⟩
      · cases hno
      · have := (g.heap.lt ha).1
        have := g.heap.size ha (by rw [hk]; exact nofun)
        exact List.mem_range.2 (by omega)
    have hle := (hnodup.subperm hsub).length_le
    rw [List.length_range] at hle
    omega
  rcases g.cur with hcur | hcur
  · rw [hcur]
    exact ⟨_,hring,(List.nodup_cons.1 hhead).1,hlen,hall⟩
  · obtain ⟨s,t,hst⟩ := List.append_of_mem ((hmem _).2 hcur)
    rw [hst] at hring hhead hlen hall
    have hperm : (dm.current :: t ++ dm.heads (some ()) :: s).Perm (dm.heads (some ()) :: s ++ dm.current :: t) :=
      List.perm_append_comm
    refine ⟨_,hring.rotate,(List.nodup_cons.1 (hperm.nodup_iff.2 hhead)).1,?_,fun u => hperm.mem_iff.trans (hall u)⟩
    simp only [List.length_append, List.length_cons] at hlen ⊢
    omega

theorem findFit_spec (g : FirstFit P B F dm) (amt : ℕ) : ∃ r, findFit dm.mem dm.blocks dm.current amt (2 ^ 64) dm.current = some r ∧
    (∀ a, r = some a → ∃ x, B a = some x ∧ x.kind = .free ∧ amt ≤ x.size) ∧
    (r = none → ∀ a x, B a = some x → x.kind = .free → x.size < amt) := by
  obtain ⟨rs,hl,hc,hn,hall⟩ := g.walk
  obtain ⟨r,hr,hsome,hnone⟩ := findFit_walk hl hc hn
  refine ⟨r,hr,fun b hb => ?_,fun hr a x ha hk => ?_⟩
  · obtain ⟨t,ht,htb,rfl,hsize⟩ := hsome b hb
    have hF := ((hall t).1 ht).resolve_left htb
    rcases (g.heap.listed _ _).1 hF with ⟨hno,-⟩ | ⟨a,x,rfl,ha,hk,-,-⟩
    · cases hno
    · rw [show a + 8 - unitsize = a from rfl] at hsize ⊢
      rw [g.heap.mbSize ha (by rw [hk]; exact nofun)] at hsize
      exact ⟨x,ha,hk,hsize⟩
  · have hF : F (entry a) = some (some ()) := (g.heap.listed _ _).2 (.inr ⟨a,x,rfl,ha,hk,not_false,rfl⟩)
    have hne : entry a ≠ dm.blocks := by
      intro he
      have hoff := g.heap.rings.head_off (some ())
      rw [show dm.heads (some ()) = entry a from he.symm,hF] at hoff
      cases hoff
    have hlt := hnone hr (entry a) ((hall _).2 (.inr hF)) hne
    rw [show entry a - unitsize = a from rfl,g.heap.mbSize ha (by rw [hk]; exact nofun)] at hlt
    exact hlt

/-! ## Allocation -/

/-- `dynmem_malloc` from `again` on, for the rounded amount. -/
def mallocRounded (addMem : Option (ℕ → ℕ)) (dm : Dynmem) (amt : ℕ) : Option (ℕ × Dynmem) :=
  (findFit dm.mem dm.blocks dm.current amt (2 ^ 64) dm.current).bind fun
    | some mb => takeFit dm mb amt
    | none =>
      match addMem with
      | none => some (0,dm)
      | some f =>
        let moreamt := max ((amt + unitsize + poolSize) % 2 ^ 64) minMoremem
        if f moreamt = 0 then some (0,dm)
        else
          (dynmemAddPool dm (f moreamt) moreamt).bind fun dm =>
            (findFit dm.mem dm.blocks dm.current amt (2 ^ 64) dm.current).bind fun mb => mb.bind fun mb => takeFit dm mb amt

theorem dynmemMalloc_eq (hinit : dm.init = true) (hamt : amt < 2 ^ 64) :
    (maxAlloc < amt + 8 ∧ ∀ addMem, dynmemMalloc addMem dm amt = some (0,dm)) ∨
      ∃ k, 8 ∣ k ∧ 32 ≤ k ∧ amt + 8 ≤ k ∧ (∀ n, 8 ∣ n → 32 ≤ n → n < k → n < amt + 8) ∧
        ∀ addMem, dynmemMalloc addMem dm amt = mallocRounded addMem dm k := by
  have hmax : maxAlloc = 2 ^ 64 - 8 := by decide
  by_cases hbig : maxAlloc < amt + 8
  · refine .inl ⟨hbig,fun addMem => ?_⟩
    have hout : dm.init = false ∨ (amt + unitsize) % 2 ^ 64 < unitsize ∨ (amt + unitsize) % 2 ^ 64 > maxAlloc := by
      unfold unitsize
      omega
    rw [dynmemMalloc]
    exact if_pos hout
  · have hmod : (amt + unitsize) % 2 ^ 64 = amt + 8 := Nat.mod_eq_of_lt (by unfold unitsize; omega)
    have hin : ¬(dm.init = false ∨ amt + 8 < unitsize ∨ amt + 8 > maxAlloc) := by
      rw [hinit]
      unfold unitsize
      simp only [reduceCtorEq, false_or]
      omega
    obtain ⟨k,hk,h8,h32,hle,hfit⟩ : ∃ k, (if amt + 8 < minsz then minsz else round2u (amt + 8)) = k ∧ 8 ∣ k ∧ 32 ≤ k ∧ amt + 8 ≤ k ∧
        ∀ n, 8 ∣ n → 32 ≤ n → n < k → n < amt + 8 := by
      obtain ⟨h1,h2,h3⟩ := round2u_spec (n := amt + 8) (by omega)
      by_cases hmin : amt + 8 < minsz
      · rw [if_pos hmin]
        exact ⟨_,rfl,by decide,by decide,Nat.le_of_lt hmin,fun n _ hn hlt => absurd hlt (Nat.not_lt.2 hn)⟩
      · rw [if_neg hmin]
        exact ⟨_,rfl,h3,Nat.le_trans (Nat.not_lt.1 hmin) h1,h1,fun n hn _ hlt => by omega⟩
    refine .inr ⟨k,h8,h32,hle,hfit,fun addMem => ?_⟩
    rw [dynmemMalloc,hmod]
    dsimp only
    rw [if_neg hin,hk]
    rfl

theorem malloc_spec (g : FirstFit P B F dm) (hamt : amt < 2 ^ 64) : ∃ p dm', dynmemMalloc none dm amt = some (p,dm') ∧
    dm'.pools = dm.pools ∧ dm'.blocks = dm.blocks ∧
    ((p = 0 ∧ dm' = dm ∧ (maxAlloc < amt + 8 ∨ ∀ a x, B a = some x → x.kind = .free → x.size < amt + 8)) ∨
      ∃ a B' F' k, p = a + 8 ∧ FirstFit P B' F' dm' ∧ amt + 8 ≤ k ∧ (∀ n, ¬InUse B a n) ∧
        ∀ c n, InUse B' c n ↔ InUse B c n ∨ c = a ∧ n = k) := by
  rcases dynmemMalloc_eq g.init hamt with ⟨hbig,hcall⟩ | ⟨k,h8,h32,hle,hfit,hcall⟩
  · exact ⟨0,dm,hcall none,rfl,rfl,.inl ⟨rfl,rfl,.inl hbig⟩⟩
  · obtain ⟨r,hr,hsome,hnone⟩ := findFit_spec g k
    rw [hcall,mallocRounded,hr]
    cases r with
    | none =>
      refine ⟨0,dm,rfl,rfl,rfl,.inl ⟨rfl,rfl,.inr fun a x ha hx => ?_⟩⟩
      exact hfit _ (g.heap.eights ha) (g.heap.size ha (by rw [hx]; exact nofun)) (hnone rfl a x ha hx)
    | some a =>
      obtain ⟨x,ha,hx,hsize⟩ := hsome a rfl
      obtain ⟨dm',B',F',n,htake,g',hpools,hblocks,hn,huse,-⟩ := takeFit_spec g ha hx h8 h32 hsize
      refine ⟨a + 8,dm',htake,hpools,hblocks,.inr ⟨a,B',F',n,rfl,g',Nat.le_trans hle hn,fun n hu => ?_,huse⟩⟩
      exact hu.apart g.heap.tiled ha (fun _ he => by rw [hx] at he; cases he) (Nat.le_refl a)
        (Nat.lt_add_of_pos_right (g.heap.tiled.pos ha)) rfl

/-! ## Freeing -/

/-- `dm_current` is on no free neighbour of the block. -/
def FreeClean (dm : Dynmem) (mem : ℕ) : Prop :=
  let mb := mem - unitsize
  let next := mb + mbSize dm.mem mb
  (dm.mem mb &&& prevAllocBit = 0 → dm.current ≠ entry (mb - dm.mem (mb - unitsize))) ∧
    (dm.mem next &&& allocBit = 0 → dm.current ≠ entry next)

theorem free_spec (g : FirstFit P B F dm) (hu : InUse B a n) (hclean : FreeClean dm (a + 8)) :
    ∃ B' F', FirstFit P B' F' (dynmemFree dm (a + 8)) ∧ (dynmemFree dm (a + 8)).pools = dm.pools ∧
      (dynmemFree dm (a + 8)).blocks = dm.blocks ∧ ∀ c n, InUse B' c n ↔ InUse B c n ∧ c ≠ a := by
  obtain ⟨x,ha,hk,rfl⟩ := hu
  have hx : x.kind ≠ .fence := by rw [hk]; exact nofun
  have hhole := g.heap.unuse (K := (· = a)) ha hk fun c => (false_or _).symm ▸ Iff.rfl
  rw [FreeClean,show a + 8 - unitsize = a from rfl,g.heap.mbSize ha hx] at hclean
  suffices hspare : ∀ c u, B c = some u → u.kind = .free → c + u.size = a ∨ c = a + x.size → dm.current ≠ entry c by
    obtain ⟨B',F',g',hpools,hblocks,huse,-⟩ := freeHole hhole g.cur g.init ha hx hspare
    exact ⟨B',F',g',hpools,hblocks,huse⟩
  intro c u hc hf hnear
  rcases hnear with hca | rfl
  · have huf : u.kind ≠ .fence := by rw [hf]; exact nofun
    have hprev : x.prev = false := by
      have hafter := g.heap.after c u x hc huf not_false (by rw [hca]; exact ha)
      cases hp : x.prev with
      | false => rfl
      | true => rw [hafter.1 hp] at hf; cases hf
    have hfoot := g.heap.foot c u hc hf not_false
    rw [hca] at hfoot
    have hne := hclean.1 ((g.heap.prev_zero ha).2 hprev)
    rw [show a - unitsize = a - 8 from rfl,hfoot] at hne
    rwa [show a - u.size = c by omega] at hne
  · exact hclean.2 ((g.heap.alloc_zero hc).2 hf)

/-! ## Blocks that change their size -/

/-- The block keeps its size, or its free neighbour, which `dm_current` is not on, gets what it loses. -/
def ShrinkClean (dm : Dynmem) (mb sz : ℕ) : Prop :=
  let nbsz := mbSize dm.mem mb - sz
  let next := mb + mbSize dm.mem mb
  nbsz < minsz ∨ dm.mem next &&& allocBit ≠ 0 ∧ nbsz < minAllocShrink ∨
    dm.mem next &&& allocBit = 0 ∧ dm.current ≠ entry next ∧ minsz ≤ sz

theorem onRing_move {head : Option Unit → ℕ} (hp : OnRing head F (some ()) p) (ha : p ≠ a) :
    OnRing head (update F a none) (some ()) p ∧ OnRing head (update (update F a none) b (some (some ()))) (some ()) p := by
  have h : OnRing head (update F a none) (some ()) p := hp.imp id fun hF => by
    rw [update_of_ne ha]
    exact hF
  refine ⟨h,h.imp id fun hF => ?_⟩
  by_cases hb : p = b
  · rw [hb,update_self]
  · rw [update_of_ne hb]
    exact hF

theorem shrink_spec (g : FirstFit P B F dm) (hu : InUse B a n) (h8 : 8 ∣ k) (hkn : k ≤ n) (hclean : ShrinkClean dm a k) :
    ∃ dm' B' F' s, shrinkAllocBlock dm a k = some dm' ∧ dm'.pools = dm.pools ∧ dm'.blocks = dm.blocks ∧ FirstFit P B' F' dm' ∧
      k ≤ s ∧ ∀ c t, InUse B' c t ↔ c ≠ a ∧ InUse B c t ∨ c = a ∧ t = s := by
  have hself := hu
  obtain ⟨⟨n,kind,q⟩,ha,rfl,rfl⟩ := hu
  have hkn : k ≤ n := hkn
  have hsize : mbSize dm.mem a = n := g.heap.mbSize ha nofun
  obtain ⟨y,hy⟩ := g.heap.tiled.next ha nofun
  have hy : B (a + n) = some y := hy
  rw [ShrinkClean,hsize] at hclean
  rw [shrinkAllocBlock]
  dsimp only
  have hunits : k % unitsize = 0 := Nat.mod_eq_zero_of_dvd h8
  rw [hsize,if_neg (not_not.2 hunits),g.init]
  by_cases hsmall : n - k < minsz
  · rw [if_pos (.inr hsmall)]
    exact ⟨_,_,_,n,rfl,rfl,rfl,g,hkn,fun c t => hself.self_iff⟩
  rw [if_neg (by simpa using hsmall)]
  by_cases hkeep : dm.mem (a + n) &&& allocBit ≠ 0 ∧ n - k < minAllocShrink
  · rw [if_pos hkeep]
    exact ⟨_,_,_,n,rfl,rfl,rfl,g,hkn,fun c t => hself.self_iff⟩
  rw [if_neg hkeep]
  obtain ⟨hzero,hcur,hk⟩ := (hclean.resolve_left hsmall).resolve_left hkeep
  have hf : y.kind = .free := (g.heap.alloc_zero hy).1 hzero
  have hyf : y.kind ≠ .fence := by rw [hf]; exact nofun
  obtain ⟨w,hw⟩ := g.heap.tiled.next hy hyf
  have hwp : w.prev = false := by
    have hafter := g.heap.after _ y w hy hyf not_false hw
    cases hp : w.prev with
    | false => rfl
    | true => rw [hafter.1 hp] at hf; cases hf
  have hrem := g.heap.rem (K := (· = a + n)) hy hf not_false fun c => (false_or _).symm ▸ Iff.rfl
  obtain ⟨l,r,rfl⟩ : ∃ l r, y = ⟨l,.free,r⟩ := ⟨y.size,y.prev,by rw [← hf]⟩
  have hpos : 0 < l := g.heap.tiled.pos hy
  have hpos : 32 ≤ n - k := Nat.not_lt.1 hsmall
  obtain ⟨hheap,hword,huse⟩ := hrem.recut (l := l) (k := k) ha hy hw hwp h8 hk (by lia) (onRing_move (b := a) g.cur hcur).1
  rw [if_pos hzero,g.heap.mbSize hy nofun,show n - k + l = n + l - k by lia]
  dsimp only
  have htag : (k ||| (dm.mem a &&& ctlbmask)) = tag ⟨k,.used,q⟩ := by
    rw [g.heap.tags a _ ha,tag_flags (g.heap.eights ha)]
    exact or_flags (x := ⟨k,.used,q⟩) h8 nofun
  have hun : unlink dm.mem (entry (a + n)) a = dm.mem a := (hrem.tags a _ ha).trans (g.heap.tags a _ ha).symm
  have hword : link (setFreeMb (unlink dm.mem (entry (a + n))) (a + k) (n + l - k) prevAllocBit) dm.current (entry (a + k)) a =
      dm.mem a := hword.trans hun
  rw [hword,htag]
  exact ⟨_,_,_,k,rfl,rfl,rfl,⟨hheap,(onRing_move g.cur hcur).2,rfl⟩,Nat.le_refl k,huse⟩

/-- `dm_current` is not on the next block, and where that is cut its part is a block and is enough. -/
def GrowClean (dm : Dynmem) (mb lenp newamt : ℕ) : Prop :=
  let delta := mbSize dm.mem mb + mbSize dm.mem lenp - newamt
  dm.current ≠ entry lenp ∧ (mbSize dm.mem lenp > delta + minsz → minsz ≤ delta ∧ newamt ≤ mbSize dm.mem mb + delta)

theorem growBlock_mem {l : ℕ} {m1 : Mem} (hn : 0 < n) (hl : 0 < l) (hsize : mbSize m (a + n) = l)
    (hm1 : put m (a + n + mbSize m (a + n)) (m (a + n + mbSize m (a + n)) ||| prevAllocBit) = m1) :
    put m1 a (m1 a + mbSize m1 (a + n)) = put (put m (a + n + l) (m (a + n + l) ||| prevAllocBit)) a (m a + l) := by
  rw [← hm1,hsize,mbSize,put_ne (by omega),put_ne (by omega),← mbSize,hsize]

theorem growBlock_heap (g : FirstFit P B F dm) (hu : InUse B a n) (hzero : dm.mem (a + n) &&& allocBit = 0) (h8 : 8 ∣ amt) (hn : n < amt)
    {l : ℕ} (hl : mbSize dm.mem (a + n) = l) (hfit : amt ≤ n + l) (hcut : l > n + l - amt + minsz → minsz ≤ n + l - amt) :
    ∃ m' B' F' s, growBlock dm a (a + n) amt = some (a + 8,{ dm with mem := m' }) ∧ Heap one dm.heads P B' (fun _ => False) m' F' ∧
      (dm.current ≠ entry (a + n) → OnRing dm.heads F' (some ()) dm.current) ∧ s = (if l > n + l - amt + minsz then n + (n + l - amt) else n + l) ∧
      (∀ c t, InUse B' c t ↔ c ≠ a ∧ InUse B c t ∨ c = a ∧ t = s) ∧ ∀ w, a < w → w < a + n → m' w = dm.mem w := by
  have hself := hu
  obtain ⟨⟨n,kind,q⟩,ha,rfl,rfl⟩ := hu
  have hself : InUse B a n := hself
  dsimp only at *
  have hsize : mbSize dm.mem a = n := g.heap.mbSize ha nofun
  obtain ⟨y,hy⟩ := g.heap.tiled.next ha nofun
  have hy : B (a + n) = some y := hy
  have hf : y.kind = .free := (g.heap.alloc_zero hy).1 hzero
  have hyf : y.kind ≠ .fence := by rw [hf]; exact nofun
  obtain ⟨w,hw⟩ := g.heap.tiled.next hy hyf
  obtain ⟨l',r,rfl⟩ : ∃ l r, y = ⟨l,.free,r⟩ := ⟨y.size,y.prev,by rw [← hf]⟩
  obtain rfl : l' = l := (g.heap.mbSize hy nofun).symm.trans hl
  have hposn : 0 < n := g.heap.tiled.pos ha
  have hposl : 32 ≤ l' := g.heap.size hy nofun
  have hheld : ∀ w, a < w → w < a + n → Outside dm.heads F w := fun w h1 h2 => g.heap.held_outside hself (Nat.le_of_lt h1) h2
  have hF : F (entry (a + n)) = some (some ()) := (g.heap.listed _ _).2 (.inr ⟨a + n,_,rfl,hy,rfl,not_false,rfl⟩)
  rw [growBlock]
  dsimp only
  rw [hsize,hl]
  by_cases hsplit : l' > n + l' - amt + minsz
  · have hk := hcut hsplit
    have h8' : 8 ∣ n + l' - amt := Nat.dvd_sub (Nat.dvd_add (g.heap.eights ha) (g.heap.eights hy)) h8
    obtain ⟨ms,hms,-,hheap,hframe⟩ := splitRem_spec g.heap hy rfl h8' hk (Nat.le_of_lt hsplit)
    obtain ⟨d,hd⟩ : ∃ d, n + l' - amt = d := ⟨_,rfl⟩
    have hmin : minsz = 32 := rfl
    rw [if_pos hsplit,if_pos hsplit,hms]
    rw [hd] at hheap hk hsplit ⊢
    have hmid : update (update B (a + n + d) (some (⟨l' - d,.free,true⟩ : Blk))) (a + n) (some ⟨d,.free,true⟩) (a + n) = some ⟨d,.free,true⟩ :=
      update_self ..
    obtain ⟨hjoin,huse⟩ := hheap.absorb (n := n) (l := d) (by rw [update_of_ne (by lia),update_of_ne (by lia)]; exact ha) hmid
      (by rw [update_of_ne (by lia),update_self])
    rw [← growBlock_mem (l := d) hposn (by lia) (hheap.mbSize hmid nofun) rfl] at hjoin
    refine ⟨_,_,_,_,rfl,hjoin,fun hcur => (onRing_move g.cur hcur).2,rfl,fun c t => (huse c t).trans
      (or_congr_left (and_congr_right fun hca => ?_)),fun w h1 h2 => ?_⟩
    · rw [inUse_update,inUse_update]
      constructor
      · rintro (⟨-,hk,-⟩ | ⟨-,⟨-,hk,-⟩ | ⟨-,hu⟩⟩)
        · cases hk
        · cases hk
        · exact hu
      · intro hu
        have hne := fun w => hu.apart g.heap.tiled hy (fun _ => nofun) (w := w)
        exact .inr ⟨hne _ (Nat.le_refl _) (by dsimp only; lia),.inr ⟨hne _ (by lia) (by dsimp only; lia),hu⟩⟩
    · rw [growBlock_mem (l := d) hposn (by lia) (hheap.mbSize hmid nofun) rfl,put_ne (by lia),put_ne (by lia)]
      exact hframe w (hheld w h1 h2) (by lia)
  · have hrem := g.heap.rem (K := (· = a + n)) hy hf not_false fun c => (false_or _).symm ▸ Iff.rfl
    obtain ⟨hjoin,huse⟩ := hrem.absorb ha hy hw
    rw [if_neg hsplit,if_neg hsplit]
    rw [← growBlock_mem (l := l') hposn (by lia) (hrem.mbSize hy nofun) rfl] at hjoin
    refine ⟨_,_,_,_,rfl,hjoin,fun hcur => (onRing_move (b := 0) g.cur hcur).1,rfl,huse,fun w h1 h2 => ?_⟩
    rw [growBlock_mem (m := unlink dm.mem (entry (a + n))) (l := l') hposn (by lia) (hrem.mbSize hy nofun) rfl,put_ne (by lia),put_ne (by lia)]
    exact (g.heap.rings.unlink hF).2 w (hheld w h1 h2)

theorem grow_spec (g : FirstFit P B F dm) (hu : InUse B a n) (hzero : dm.mem (a + n) &&& allocBit = 0) (h8 : 8 ∣ amt) (hn : n < amt)
    (hfit : amt ≤ n + mbSize dm.mem (a + n)) (hclean : GrowClean dm a (a + n) amt) :
    ∃ dm' B' F' s, growBlock dm a (a + n) amt = some (a + 8,dm') ∧ dm'.pools = dm.pools ∧ dm'.blocks = dm.blocks ∧
      FirstFit P B' F' dm' ∧ amt ≤ s ∧ ∀ c t, InUse B' c t ↔ c ≠ a ∧ InUse B c t ∨ c = a ∧ t = s := by
  rw [GrowClean,g.heap.inUse_size hu] at hclean
  obtain ⟨hcur,hcut⟩ := hclean
  obtain ⟨m',B',F',s,hcall,hheap,hon,hs,huse,-⟩ := growBlock_heap g hu hzero h8 hn rfl hfit fun h => (hcut h).1
  refine ⟨_,B',F',s,hcall,rfl,rfl,⟨hheap,hon hcur,g.init⟩,?_,huse⟩
  rw [hs]
  split
  · rename_i hsplit
    exact (hcut hsplit).2
  · exact hfit

/-! ## Reallocation -/

theorem FirstFit.client (g : FirstFit P B F dm) (hm : ∀ w, m w ≠ dm.mem w → ∃ a n, InUse B a n ∧ a < w ∧ w < a + n) :
    FirstFit P B F { dm with mem := m } := by
  refine ⟨g.heap.client fun w hw => ?_,g.cur,g.init⟩
  obtain ⟨a,n,⟨x,ha,hk,rfl⟩,h1,h2⟩ := hm w hw
  exact ⟨a,x,ha,hk,h1,h2⟩

/-- No branch goes wrong that the call takes. -/
def ReallocClean (dm : Dynmem) (omem newamt : ℕ) : Prop :=
  if newamt = 0 then omem ≠ 0 → FreeClean dm omem
  else if omem = 0 then True
  else
    let tsz := round2u newamt
    if tsz < newamt ∨ tsz > maxAlloc - unitsize then True
    else
      let newamt := tsz + unitsize
      let mb := omem - unitsize
      if dm.mem mb ≥ newamt then ShrinkClean dm mb newamt
      else
        let lenp := mb + mbSize dm.mem mb
        if dm.mem lenp &&& allocBit = 0 ∧ mbSize dm.mem mb + mbSize dm.mem lenp ≥ newamt then GrowClean dm mb lenp newamt
        else ∀ nmem dm', dynmemMalloc none dm newamt = some (nmem,dm') → nmem ≠ 0 →
          FreeClean { dm' with mem := memcpy dm'.mem nmem omem (mbSize dm'.mem mb) } omem

theorem move_spec (g : FirstFit P B F dm) (hu : InUse B a n) (hn : n ≤ amt) (hamt : amt < 2 ^ 64)
    (hclean : ∀ p dm', dynmemMalloc none dm amt = some (p,dm') → p ≠ 0 →
      FreeClean { dm' with mem := memcpy dm'.mem p (a + 8) (mbSize dm'.mem a) } (a + 8)) :
    ∃ p dm', (dynmemMalloc none dm amt).map (fun (p,dm') => if p = 0 then (p,dm')
        else (p,dynmemFree { dm' with mem := memcpy dm'.mem p (a + 8) (mbSize dm'.mem a) } (a + 8))) = some (p,dm') ∧
      dm'.pools = dm.pools ∧ dm'.blocks = dm.blocks ∧ ((p = 0 ∧ dm' = dm) ∨ ∃ b B' F' s, p = b + 8 ∧ FirstFit P B' F' dm' ∧
        amt + 8 ≤ s ∧ (b ≠ a → ∀ n, ¬InUse B b n) ∧ ∀ c t, InUse B' c t ↔ c ≠ a ∧ InUse B c t ∨ c = b ∧ t = s) := by
  obtain ⟨p,dm1,hcall,hpools,hblocks,⟨rfl,rfl,-⟩ | ⟨b,B1,F1,s,rfl,g1,hs,hnew,huse⟩⟩ := malloc_spec g hamt
  · rw [hcall]
    exact ⟨0,dm1,rfl,rfl,rfl,.inl ⟨rfl,rfl⟩⟩
  · rw [hcall]
    have hu1 : InUse B1 a n := (huse a n).2 (.inl hu)
    have hub : InUse B1 b s := (huse b s).2 (.inr ⟨rfl,rfl⟩)
    have hba : b ≠ a := by
      rintro rfl
      exact hnew n hu
    have hsize : mbSize dm1.mem a = n := by
      obtain ⟨x,ha,hk,rfl⟩ := hu1
      exact g1.heap.mbSize ha (by rw [hk]; exact nofun)
    have g2 : FirstFit P B1 F1 { dm1 with mem := memcpy dm1.mem (b + 8) (a + 8) (mbSize dm1.mem a) } := by
      refine g1.client fun w hw => ⟨b,s,hub,?_⟩
      rw [hsize,memcpy] at hw
      by_cases hin : b + 8 ≤ w ∧ w < b + 8 + n
      · omega
      · rw [if_neg hin] at hw
        exact absurd rfl hw
    obtain ⟨B2,F2,g3,hpools2,hblocks2,huse2⟩ := free_spec g2 hu1 (hclean _ dm1 hcall (Nat.succ_ne_zero _))
    refine ⟨b + 8,_,rfl,hpools2.trans hpools,hblocks2.trans hblocks,.inr ⟨b,B2,F2,s,rfl,g3,hs,fun _ => hnew,fun c t => ?_⟩⟩
    rw [huse2,huse]
    constructor
    · rintro ⟨h | h,hca⟩
      · exact .inl ⟨hca,h⟩
      · exact .inr h
    · rintro (⟨hca,h⟩ | h)
      · exact ⟨.inl h,hca⟩
      · exact ⟨.inr h,by rw [h.1]; exact hba⟩

theorem realloc_need (hfits : ¬(round2u amt < amt ∨ round2u amt > maxAlloc - unitsize)) (hk : round2u amt + unitsize = k) :
    8 ∣ k ∧ amt + 8 ≤ k ∧ k < amt + 16 ∧ k + 8 ≤ 2 ^ 64 := by
  have hmax : maxAlloc - unitsize = 2 ^ 64 - 16 := by decide
  have hunit : unitsize = 8 := rfl
  have h8 : 8 ∣ round2u amt := Nat.dvd_mul_left _ _
  have := (round2u_spec (n := amt) (by omega)).2.1
  exact ⟨hk ▸ Nat.dvd_add h8 (by decide),by omega,by omega,by omega⟩

theorem FirstFit.tag_ge (g : FirstFit P B F dm) (hu : InUse B a n) (h8 : 8 ∣ k) : dm.mem a ≥ k ↔ k ≤ n := by
  obtain ⟨⟨n,kind,q⟩,ha,rfl,rfl⟩ := hu
  have hn8 : 8 ∣ n := g.heap.eights ha
  have htag : dm.mem a = n + (1 + if q then 2 else 0) := by
    rw [g.heap.tags a _ ha]
    simp only [tag, reduceCtorEq, if_false]
  rw [htag]
  dsimp only
  split <;> omega

theorem dynmemRealloc_eq (g : FirstFit P B F dm) (hu : InUse B a n) (h0 : amt ≠ 0)
    (hfits : ¬(round2u amt < amt ∨ round2u amt > maxAlloc - unitsize)) (hk : round2u amt + unitsize = k) (addMem : Option (ℕ → ℕ)) :
    dynmemRealloc addMem dm (a + 8) amt = if k ≤ n then (shrinkAllocBlock dm a k).map (a + 8,·)
      else if dm.mem (a + n) &&& allocBit = 0 ∧ n + mbSize dm.mem (a + n) ≥ k then growBlock dm a (a + n) k
      else (dynmemMalloc addMem dm k).map fun (nmem,dm') => if nmem = 0 then (nmem,dm')
        else (nmem,dynmemFree { dm' with mem := memcpy dm'.mem nmem (a + 8) (mbSize dm'.mem a) } (a + 8)) := by
  rw [dynmemRealloc,if_neg h0,if_neg (Nat.succ_ne_zero _)]
  dsimp only
  rw [if_neg hfits,hk,show a + 8 - unitsize = a from rfl,g.heap.inUse_size hu]
  simp only [g.tag_ge hu (realloc_need hfits hk).1]

theorem realloc_spec (g : FirstFit P B F dm) (hu : InUse B a n) (h0 : amt ≠ 0)
    (hclean : ReallocClean dm (a + 8) amt) : ∃ p dm', dynmemRealloc none dm (a + 8) amt = some (p,dm') ∧ dm'.pools = dm.pools ∧
      dm'.blocks = dm.blocks ∧ ((p = 0 ∧ dm' = dm) ∨ ∃ b B' F' s, p = b + 8 ∧ FirstFit P B' F' dm' ∧ amt + 8 ≤ s ∧
        (b ≠ a → ∀ n, ¬InUse B b n) ∧ ∀ c t, InUse B' c t ↔ c ≠ a ∧ InUse B c t ∨ c = b ∧ t = s) := by
  rw [ReallocClean,if_neg h0,if_neg (Nat.succ_ne_zero _)] at hclean
  dsimp only at hclean
  by_cases hout : round2u amt < amt ∨ round2u amt > maxAlloc - unitsize
  · rw [dynmemRealloc,if_neg h0,if_neg (Nat.succ_ne_zero _)]
    dsimp only
    rw [if_pos hout]
    exact ⟨0,dm,rfl,rfl,rfl,.inl ⟨rfl,rfl⟩⟩
  obtain ⟨k,hk⟩ : ∃ k, round2u amt + unitsize = k := ⟨_,rfl⟩
  obtain ⟨hk8,hkamt,-,hklt⟩ := realloc_need hout hk
  rw [if_neg hout,hk,show a + 8 - unitsize = a from rfl,g.heap.inUse_size hu] at hclean
  rw [dynmemRealloc_eq g hu h0 hout hk]
  by_cases hfits : k ≤ n
  · rw [if_pos ((g.tag_ge hu hk8).2 hfits)] at hclean
    rw [if_pos hfits]
    obtain ⟨dm',B',F',s,hcall,hpools,hblocks,g',hs,huse⟩ := shrink_spec g hu hk8 hfits hclean
    rw [hcall]
    exact ⟨_,dm',rfl,hpools,hblocks,.inr ⟨a,B',F',s,rfl,g',Nat.le_trans hkamt hs,fun h => absurd rfl h,huse⟩⟩
  rw [if_neg fun h => hfits ((g.tag_ge hu hk8).1 h)] at hclean
  rw [if_neg hfits]
  by_cases hgrow : dm.mem (a + n) &&& allocBit = 0 ∧ n + mbSize dm.mem (a + n) ≥ k
  · rw [if_pos hgrow] at hclean ⊢
    obtain ⟨dm',B',F',s,hcall,hpools,hblocks,g',hs,huse⟩ := grow_spec g hu hgrow.1 hk8 (by omega) hgrow.2 hclean
    exact ⟨_,dm',hcall,hpools,hblocks,.inr ⟨a,B',F',s,rfl,g',Nat.le_trans hkamt hs,fun h => absurd rfl h,huse⟩⟩
  rw [if_neg hgrow] at hclean ⊢
  obtain ⟨p,dm',hcall,hpools,hblocks,hcase⟩ := move_spec g hu (by omega : n ≤ k) (by omega) hclean
  refine ⟨p,dm',hcall,hpools,hblocks,hcase.imp id ?_⟩
  rintro ⟨b,B',F',s,hp,g',hs,h⟩
  exact ⟨b,B',F',s,hp,g',by omega,h⟩

end Catlib.Alloc
