import Catlib.Crypto.Sha256
import Catlib.Crypto.Siphash
import Catlib.Logic.Pieces

/-! # Messages in chunks

Both hashes keep an unfinished block in the context, byte by byte. A byte that does not finish
the block changes the next call only in where it goes on.
-/
namespace Catlib.Crypto

variable {b : Byte} {p : List Byte}

theorem foldl_bytes {τ : Type} (f : τ → ℕ → Byte → τ) (x : τ) (k n : ℕ) (b : Byte) (p : List Byte) :
    (List.range (n + 1)).foldl (fun x i => f x (k + i) ((b :: p).getD i 0)) x =
      (List.range n).foldl (fun x i => f x (k + 1 + i) (p.getD i 0)) (f x k b) := by
  have hstep : (fun (x : τ) (i : ℕ) => f x (k + i.succ) ((b :: p).getD i.succ 0)) = fun x i => f x (k + 1 + i) (p.getD i 0) := by
    funext x i
    rw [List.getD_cons_succ,show k + i.succ = k + 1 + i by omega]
  rw [List.range_succ_eq_map,List.foldl_cons,List.foldl_map,hstep]
  rfl

/-! ## SHA-256 -/

variable {s : Sha256ctx}

theorem Sha256ctx.ext_iff {s t : Sha256ctx} : s = t ↔ s.llo = t.llo ∧ s.lhi = t.lhi ∧ s.w = t.w ∧ s.h = t.h := by
  cases s
  cases t
  exact Sha256ctx.mk.injEq .. ▸ Iff.rfl


/-- The low half of the length is a word of 32 bits. -/
def LowWord (s : Sha256ctx) : Prop := s.llo.toNat < 2 ^ 32

theorem sha256Add_nil (s : Sha256ctx) : sha256Add s [] = s := by
  rw [sha256Add,dif_pos rfl]

theorem sha256Add_cons (s : Sha256ctx) (b : Byte) (p : List Byte) : sha256Add s (b :: p) =
    sha256Add (if (sha256AddBytes s (b :: p)).1 then sha256HashBlock (sha256AddBytes s (b :: p)).2.1 else (sha256AddBytes s (b :: p)).2.1)
      (sha256AddBytes s (b :: p)).2.2 := by
  rw [sha256Add,dif_neg (List.cons_ne_nil b p)]

theorem addBytes_llo (s : Sha256ctx) (p : List Byte) (hs : LowWord s) :
    (sha256AddBytes s p).2.1.llo.toNat = (s.llo.toNat + toadd s p) % 2 ^ 32 := by
  have hn : toadd s p ≤ 64 := (min_le_left _ _).trans (Nat.sub_le _ _)
  unfold LowWord at hs
  rw [sha256AddBytes,toNat_mask,BitVec.toNat_add,BitVec.toNat_ofNat,Nat.mod_eq_of_lt (show toadd s p < 2 ^ 64 by omega),
    Nat.mod_eq_of_lt (show s.llo.toNat + toadd s p < 2 ^ 64 by omega)]

/-- The context behind a byte that does not finish its block. -/
def addByte (s : Sha256ctx) (b : Byte) : Sha256ctx :=
  { s with w := storeByte s.w (blockIdx s) b, llo := (s.llo + 1) &&& 0xFFFFFFFF }

theorem addByte_llo (hs : LowWord s) (hi : blockIdx s < 63) (b : Byte) : (addByte s b).llo.toNat = s.llo.toNat + 1 := by
  rw [blockIdx_eq] at hi
  unfold LowWord at hs
  have h1 : (1 : Ulong).toNat = 1 := rfl
  rw [addByte,toNat_mask,BitVec.toNat_add,h1]
  omega

theorem addByte_idx (hs : LowWord s) (hi : blockIdx s < 63) (b : Byte) : blockIdx (addByte s b) = blockIdx s + 1 := by
  rw [blockIdx_eq,addByte_llo hs hi]
  rw [blockIdx_eq] at hi ⊢
  omega

theorem LowWord.addByte (hs : LowWord s) (hi : blockIdx s < 63) (b : Byte) : LowWord (addByte s b) := by
  rw [LowWord,addByte_llo hs hi]
  rw [blockIdx_eq] at hi
  unfold LowWord at hs
  omega

theorem addBytes_byte (hs : LowWord s) (hi : blockIdx s < 63) (b : Byte) : sha256AddBytes s [b] = (false,addByte s b,[]) := by
  have hn : toadd s [b] = 1 := by
    rw [toadd,List.length_singleton]
    omega
  have hup : ¬((s.llo + 1) &&& 0xFFFFFFFF) < s.llo := by
    have hllo := addByte_llo hs hi b
    rw [addByte] at hllo
    rw [BitVec.lt_def,hllo]
    omega
  have hfull : decide (blockIdx s + 1 = 64) = false := decide_eq_false (by omega)
  simp only [sha256AddBytes, hn, hfull, show BitVec.ofNat 64 1 = 1 from rfl, if_neg hup]
  rfl

theorem addBytes_cons (hs : LowWord s) (hi : blockIdx s < 63) (b : Byte) (p : List Byte) :
    sha256AddBytes s (b :: p) = sha256AddBytes (addByte s b) p := by
  have hidx := addByte_idx hs hi b
  have hllo := addByte_llo hs hi b
  have hn : toadd s (b :: p) = toadd (addByte s b) p + 1 := by
    rw [toadd,toadd,hidx,List.length_cons]
    lia
  have hle : toadd (addByte s b) p ≤ 64 - (blockIdx s + 1) := hidx ▸ min_le_left _ _
  have hlow := addBytes_llo s (b :: p) hs
  have hlow' := addBytes_llo (addByte s b) p (hs.addByte hi b)
  have hsame : (sha256AddBytes s (b :: p)).2.1.llo = (sha256AddBytes (addByte s b) p).2.1.llo := by
    apply BitVec.eq_of_toNat_eq
    rw [hlow,hlow',hllo,hn]
    congr 1
    lia
  -- the length wraps with a block, so not at the byte itself
  have hcarry : (sha256AddBytes s (b :: p)).2.1.llo < s.llo ↔ (sha256AddBytes s (b :: p)).2.1.llo < (addByte s b).llo := by
    rw [BitVec.lt_def,BitVec.lt_def,hlow,hllo,hn]
    rw [blockIdx_eq] at hi hle
    unfold LowWord at hs
    lia
  have hw : (sha256AddBytes s (b :: p)).2.1.w = (sha256AddBytes (addByte s b) p).2.1.w := by
    simp only [sha256AddBytes]
    rw [hn,hidx]
    exact foldl_bytes storeByte s.w (blockIdx s) _ b p
  have hlhi : (sha256AddBytes s (b :: p)).2.1.lhi = (sha256AddBytes (addByte s b) p).2.1.lhi := by
    have h1 : (sha256AddBytes s (b :: p)).2.1.lhi = if (sha256AddBytes s (b :: p)).2.1.llo < s.llo then s.lhi + 1 else s.lhi := rfl
    rw [h1,if_congr hcarry rfl rfl,hsame]
    rfl
  have hfull : (sha256AddBytes s (b :: p)).1 = (sha256AddBytes (addByte s b) p).1 := by
    have h1 : (sha256AddBytes s (b :: p)).1 = decide (blockIdx s + toadd s (b :: p) = 64) := rfl
    have h2 : (sha256AddBytes (addByte s b) p).1 = decide (blockIdx (addByte s b) + toadd (addByte s b) p = 64) := rfl
    rw [h1,h2,hn,hidx,Nat.add_right_comm,Nat.add_assoc]
  have hrest : (sha256AddBytes s (b :: p)).2.2 = (sha256AddBytes (addByte s b) p).2.2 := by
    have h1 : (sha256AddBytes s (b :: p)).2.2 = (b :: p).drop (toadd s (b :: p)) := rfl
    rw [h1,hn,List.drop_succ_cons]
    rfl
  refine Prod.ext hfull (Prod.ext ?_ hrest)
  rw [Sha256ctx.ext_iff]
  exact ⟨hsame,hlhi,hw,rfl⟩

theorem addBytes_last (hi : ¬blockIdx s < 63) (b : Byte) (p : List Byte) :
    sha256AddBytes s (b :: p) = (true,(sha256AddBytes s [b]).2.1,p) := by
  have hlt : blockIdx s < 64 := blockIdx_eq s ▸ Nat.mod_lt _ (by decide)
  have hn : ∀ q : List Byte, toadd s (b :: q) = 1 := by
    intro q
    rw [toadd,List.length_cons]
    omega
  have hfull : (sha256AddBytes s (b :: p)).1 = true := by
    simp only [sha256AddBytes, hn]
    exact decide_eq_true (by omega)
  have hctx : (sha256AddBytes s (b :: p)).2.1 = (sha256AddBytes s [b]).2.1 := by
    simp only [sha256AddBytes, hn, List.range_one, List.foldl_cons, List.foldl_nil, List.getD_cons_zero]
  have hrest : (sha256AddBytes s (b :: p)).2.2 = p := by
    simp only [sha256AddBytes, hn, List.drop_succ_cons, List.drop_zero]
  exact Prod.ext hfull (Prod.ext hctx hrest)

theorem hashBlock_llo (s : Sha256ctx) : (sha256HashBlock s).llo = s.llo := by
  simp only [sha256HashBlock]

theorem sha256Add_byte (b : Byte) (p : List Byte) (hs : LowWord s) : sha256Add s (b :: p) = sha256Add (sha256Add s [b]) p := by
  by_cases hi : blockIdx s < 63
  · have hone : sha256Add s [b] = addByte s b := by
      rw [sha256Add_cons,addBytes_byte hs hi]
      exact sha256Add_nil _
    rw [hone]
    cases p with
    | nil => rw [hone,sha256Add_nil]
    | cons d p => rw [sha256Add_cons,addBytes_cons hs hi,← sha256Add_cons]
  · have hone : sha256Add s [b] = sha256HashBlock (sha256AddBytes s [b]).2.1 := by
      rw [sha256Add_cons,addBytes_last hi b []]
      exact sha256Add_nil _
    rw [sha256Add_cons,addBytes_last hi b p,hone]
    rfl

theorem lowWord_add (b : Byte) (hs : LowWord s) : LowWord (sha256Add s [b]) := by
  have hlow : LowWord (sha256AddBytes s [b]).2.1 := by
    rw [LowWord,addBytes_llo s [b] hs]
    exact Nat.mod_lt _ (by decide)
  by_cases hi : blockIdx s < 63
  · rw [sha256Add_cons,addBytes_byte hs hi,sha256Add_nil]
    exact hs.addByte hi b
  · rw [sha256Add_cons,addBytes_last hi b [],sha256Add_nil,LowWord,if_pos rfl,hashBlock_llo]
    exact hlow

/-! ## SipHash -/

variable {c : Siphashctx}

theorem siphash24Add_nil (c : Siphashctx) : siphash24Add c [] = c := by
  rw [siphash24Add,dif_pos rfl]

theorem siphash24Add_cons (c : Siphashctx) (b : Byte) (p : List Byte) : siphash24Add c (b :: p) =
    siphash24Add (if (siphashAddBytes c (b :: p)).1 then siphashAbsorb (siphashAddBytes c (b :: p)).2.1
      else (siphashAddBytes c (b :: p)).2.1) (siphashAddBytes c (b :: p)).2.2 := by
  rw [siphash24Add,dif_neg (List.cons_ne_nil b p)]

theorem orBytes_eight (p : List Byte) : (List.range 8).foldl
    (fun st i => orByte st i (p.getD i 0)) ⟨0,0⟩ = ⟨joinInts p 0,joinInts p 4⟩ := by
  simp only [List.range_succ, List.range_zero, List.nil_append, List.cons_append, List.foldl_cons, List.foldl_nil, orByte, joinInts,
    BitVec.signExtend_or]
  simp

/-- The word that the next bytes go to. -/
def slowState (c : Siphashctx) : Pair := if (c.nbytes % 8).toNat = 0 then ⟨0,0⟩ else c.state

/-- The context behind a byte that does not finish its word. -/
def slowByte (c : Siphashctx) (b : Byte) : Siphashctx :=
  { c with state := orByte (slowState c) (c.nbytes % 8).toNat b, nbytes := c.nbytes + 1 }

theorem slowByte_off (ho : (c.nbytes % 8).toNat < 7) (b : Byte) : ((slowByte c b).nbytes % 8).toNat = (c.nbytes % 8).toNat + 1 := by
  have h1 : (1 : BitVec 32).toNat = 1 := rfl
  have h8 : (8 : BitVec 32).toNat = 8 := rfl
  have hlt := c.nbytes.isLt
  rw [BitVec.toNat_umod,h8] at ho ⊢
  rw [BitVec.toNat_umod,slowByte,BitVec.toNat_add,h1,h8]
  omega

theorem addBytes_slow (c : Siphashctx) (p : List Byte) : siphashAddBytes c p =
    let n := min (8 - (c.nbytes % 8).toNat) p.length
    (decide ((c.nbytes + BitVec.ofNat 32 n) % 8 = 0),
      { c with
        state := (List.range n).foldl (fun st i => orByte st ((c.nbytes % 8).toNat + i) (p.getD i 0)) (slowState c)
        nbytes := c.nbytes + BitVec.ofNat 32 n },p.drop n) := by
  by_cases hfast : (c.nbytes % 8).toNat = 0 ∧ 8 ≤ p.length
  · have hn : min (8 - 0) p.length = 8 := min_eq_left hfast.2
    have hstate : (List.range 8).foldl (fun st i => orByte st (0 + i) (p.getD i 0)) ⟨0,0⟩ = ⟨joinInts p 0,joinInts p 4⟩ := by
      simp only [Nat.zero_add]
      exact orBytes_eight p
    have hfull : (c.nbytes + BitVec.ofNat 32 8) % 8 = 0 := by
      have h8 : (8 : BitVec 32).toNat = 8 := rfl
      have h := hfast.1
      apply BitVec.eq_of_toNat_eq
      rw [BitVec.toNat_umod,h8] at h
      rw [BitVec.toNat_umod,BitVec.toNat_add,h8,show (BitVec.ofNat 32 8).toNat = 8 from rfl]
      show _ = 0
      omega
    rw [siphashAddBytes,if_pos hfast]
    simp only [hfast.1, hn, slowState, if_true, hstate, hfull, decide_true]
    rfl
  · rw [siphashAddBytes,if_neg hfast]
    rfl

theorem siphashAddBytes_byte (ho : (c.nbytes % 8).toNat < 7) (b : Byte) : siphashAddBytes c [b] = (false,slowByte c b,[]) := by
  have hn : min (8 - (c.nbytes % 8).toNat) [b].length = 1 := by
    rw [List.length_singleton]
    omega
  have hoff := slowByte_off ho b
  have hfull : decide ((c.nbytes + BitVec.ofNat 32 1) % 8 = 0) = false := by
    refine decide_eq_false fun h => ?_
    rw [slowByte,show (1 : BitVec 32) = BitVec.ofNat 32 1 from rfl,h] at hoff
    exact absurd hoff (Nat.succ_ne_zero _).symm
  rw [addBytes_slow]
  simp only [hn, hfull, List.range_one, List.foldl_cons, List.foldl_nil, List.getD_cons_zero, Nat.add_zero, List.drop_succ_cons,
    List.drop_zero]
  rfl

theorem siphashAddBytes_cons (ho : (c.nbytes % 8).toNat < 7) (b : Byte) (p : List Byte) :
    siphashAddBytes c (b :: p) = siphashAddBytes (slowByte c b) p := by
  have hoff := slowByte_off ho b
  -- the next byte finds a word that is begun
  have hbegun : slowState (slowByte c b) = orByte (slowState c) (c.nbytes % 8).toNat b := by
    rw [slowState,if_neg (by omega)]
    rfl
  have hbytes : ∀ m, c.nbytes + BitVec.ofNat 32 (m + 1) = (slowByte c b).nbytes + BitVec.ofNat 32 m := by
    intro m
    rw [slowByte,BitVec.ofNat_add,BitVec.add_comm (BitVec.ofNat 32 m),← BitVec.add_assoc]
    rfl
  obtain ⟨n,hn⟩ : ∃ n, min (8 - ((c.nbytes % 8).toNat + 1)) p.length = n := ⟨_,rfl⟩
  have hn' : min (8 - (c.nbytes % 8).toNat) (b :: p).length = n + 1 := by
    rw [List.length_cons]
    omega
  rw [addBytes_slow c,addBytes_slow (slowByte c b)]
  simp only [hn', hbytes, hbegun, hoff, hn, foldl_bytes orByte, List.drop_succ_cons]
  rfl

theorem siphashAddBytes_last (ho : ¬(c.nbytes % 8).toNat < 7) (b : Byte) (p : List Byte) :
    siphashAddBytes c (b :: p) = (true,(siphashAddBytes c [b]).2.1,p) := by
  have hlt : (c.nbytes % 8).toNat < 8 := by
    rw [BitVec.toNat_umod]
    exact Nat.mod_lt _ (by decide)
  have hn : ∀ q : List Byte, min (8 - (c.nbytes % 8).toNat) (b :: q).length = 1 := by
    intro q
    rw [List.length_cons]
    omega
  have hfull : (c.nbytes + BitVec.ofNat 32 1) % 8 = 0 := by
    have h1 : (BitVec.ofNat 32 1).toNat = 1 := rfl
    have h8 : (8 : BitVec 32).toNat = 8 := rfl
    apply BitVec.eq_of_toNat_eq
    rw [BitVec.toNat_umod,h8] at ho hlt
    rw [BitVec.toNat_umod,BitVec.toNat_add,h1,h8]
    show _ = 0
    omega
  rw [addBytes_slow c (b :: p),addBytes_slow c [b]]
  simp only [hn, hfull, decide_true, List.range_one, List.foldl_cons, List.foldl_nil, List.getD_cons_zero, List.drop_succ_cons,
    List.drop_zero]

theorem siphash24Add_byte (c : Siphashctx) (b : Byte) (p : List Byte) :
    siphash24Add c (b :: p) = siphash24Add (siphash24Add c [b]) p := by
  by_cases ho : (c.nbytes % 8).toNat < 7
  · have hone : siphash24Add c [b] = slowByte c b := by
      rw [siphash24Add_cons,siphashAddBytes_byte ho]
      exact siphash24Add_nil _
    rw [hone]
    cases p with
    | nil => rw [hone,siphash24Add_nil]
    | cons d p => rw [siphash24Add_cons,siphashAddBytes_cons ho,← siphash24Add_cons]
  · have hone : siphash24Add c [b] = siphashAbsorb (siphashAddBytes c [b]).2.1 := by
      rw [siphash24Add_cons,siphashAddBytes_last ho b []]
      exact siphash24Add_nil _
    rw [siphash24Add_cons,siphashAddBytes_last ho b p,hone]
    rfl

/-- Cutting a message into chunks does not change the context that is left. -/
theorem add_chunks (chunks : List (List Byte)) :
    chunks.foldl sha256Add sha256Init = sha256Add sha256Init chunks.flatten ∧
    ∀ key, chunks.foldl siphash24Add (siphashInit key) = siphash24Add (siphashInit key) chunks.flatten := by
  refine ⟨?_,fun key => ?_⟩
  · exact absorb_chunks (I := LowWord) sha256Add_nil (fun s b p hs => sha256Add_byte b p hs) (fun s b hs => lowWord_add b hs) chunks
      (show (0 : Ulong).toNat < 2 ^ 32 by decide)
  · exact absorb_chunks (I := fun _ => True) siphash24Add_nil (fun c b p _ => siphash24Add_byte c b p) (fun _ _ _ => trivial) chunks trivial

end Catlib.Crypto
