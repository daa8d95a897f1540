import Catlib.Buffer.Memory
import Catlib.Text.Cset

/-! # Copies of strings in str.c

The four copies go through one loop that also measures, and a terminator that is set behind it. A
destination is a block of memory and the offset in it; an access outside a block has no result.
-/
namespace Catlib.Text
open Peg (csetContains)

variable {dst src str new old beyond l set : List UInt8} {p : UInt8 → Option Bool} {off dlen i n : ℕ} {c x : UInt8}

/-! ## The code -/

def poke (mem : List UInt8) (i : ℕ) (c : UInt8) : Option (List UInt8) := if i < mem.length then some (mem.set i c) else none

/-- The loop of `str_copy` with the room that is left: the destination, the room and the place where it stops. -/
def copyLoop (src : List UInt8) (off : ℕ) : ℕ → ℕ → List UInt8 → Option (List UInt8 × ℕ × ℕ)
  | 0, i, dst => some (dst,0,i)
  | dlen + 1, i, dst => do
    let c ← src[i]?
    let dst ← poke dst (off + i) c
    if c ≠ 0 then copyLoop src off dlen (i + 1) dst else return (dst,dlen + 1,i)

/-- What both copies do when no room is left: the last byte is given up for the terminator, and the rest is measured. -/
def closeOff (p : UInt8 → Option Bool) (src : List UInt8) (off i : ℕ) (dst : List UInt8) : Option (ℕ × List UInt8) := do
  let dst ← if i ≠ 0 then poke dst (off + i - 1) 0 else some dst
  return (i + (← spanLen p (src.drop i)),dst)

/-- `str_copy` to the offset `off`. -/
def strCopy (dst : List UInt8) (off : ℕ) (src : List UInt8) (dlen : ℕ) : Option (ℕ × List UInt8) := do
  let (dst,left,i) ← copyLoop src off dlen 0 dst
  if left = 0 then closeOff (fun c => some (c != 0)) src off i dst else return (i,dst)

/-- The loop of `str_copy_spn`; it has returned where the terminator is set. -/
def spnLoop (src set : List UInt8) (off : ℕ) : ℕ → ℕ → List UInt8 → Option (List UInt8 × Bool × ℕ)
  | 0, i, dst => some (dst,false,i)
  | dlen + 1, i, dst => do
    let ch ← src[i]?
    if ← csetContains set ch then spnLoop src set off dlen (i + 1) (← poke dst (off + i) ch)
    else return (← poke dst (off + i) 0,true,i)

def strCopySpn (dst : List UInt8) (off : ℕ) (src : List UInt8) (dlen : ℕ) (set : List UInt8) : Option (ℕ × List UInt8) := do
  let (dst,returned,i) ← spnLoop src set off dlen 0 dst
  if returned then return (i,dst) else closeOff (csetContains set) src off i dst

/-- The loop that looks for the end of the string in the destination. -/
def endLoop (dst : List UInt8) : ℕ → ℕ → Option (ℕ × ℕ)
  | 0, i => some (0,i)
  | dlen + 1, i => do if (← dst[i]?) ≠ 0 then endLoop dst dlen (i + 1) else return (dlen + 1,i)

/-- A copy to the end of the string in the destination. -/
def catWith (copy : ℕ → ℕ → Option (ℕ × List UInt8)) (dst : List UInt8) (dlen : ℕ) : Option (ℕ × List UInt8) := do
  let (dlen,dstoff) ← endLoop dst dlen 0
  let (copylen,dst) ← copy dstoff dlen
  if copylen ≤ 2 ^ 64 - 1 - dstoff then return (copylen + dstoff,dst) else none

def strCat (dst src : List UInt8) (dlen : ℕ) : Option (ℕ × List UInt8) := catWith (fun off dlen => strCopy dst off src dlen) dst dlen

def strCatSpn (dst src : List UInt8) (dlen : ℕ) (set : List UInt8) : Option (ℕ × List UInt8) :=
  catWith (fun off dlen => strCopySpn dst off src dlen set) dst dlen

/-! ## Cells one after another -/

/-- A block with other cells from `off` on. -/
def lay (dst : List UInt8) (off : ℕ) (l : List UInt8) : List UInt8 := dst.take off ++ l ++ dst.drop (off + l.length)

theorem lay_nil (dst : List UInt8) (off : ℕ) : lay dst off [] = dst := by
  rw [lay,List.append_nil,List.length_nil,Nat.add_zero,List.take_append_drop]

theorem length_lay (h : off + l.length ≤ dst.length) : (lay dst off l).length = dst.length := by
  simp only [lay, List.length_append, List.length_take, List.length_drop]
  omega

theorem set_append_cons (a b : List UInt8) (x c : UInt8) (h : a.length = i) : (a ++ x :: b).set i c = a ++ c :: b := by
  subst h
  rw [List.set_append_right _ _ le_rfl,Nat.sub_self,List.set_cons_zero]

theorem poke_head {w : List UInt8} (hw : w.length = i) (x c : UInt8) (f : List UInt8) : poke (w ++ x :: f) i c = some (w ++ c :: f) := by
  rw [poke,set_append_cons w f x c hw,if_pos (by simp [← hw])]

theorem poke_next {w : List UInt8} (hw : w.length = i) (x y c : UInt8) (f : List UInt8) :
    poke (w ++ x :: y :: f) (i + 1) c = some (w ++ x :: c :: f) := by
  have h := poke_head (w := w ++ [x]) (i := i + 1) (by simp [hw]) y c f
  rwa [List.append_assoc,List.append_assoc] at h

theorem poke_lay (h : off + l.length < dst.length) (c : UInt8) :
    poke (lay dst off l) (off + l.length) c = some (lay dst off (l ++ [c])) := by
  rw [poke,if_pos (by rw [length_lay h.le]; exact h)]
  have hfront : (dst.take off ++ l).length = off + l.length := by
    rw [List.length_append,List.length_take,min_eq_left (by omega)]
  rw [lay,List.drop_eq_getElem_cons h,set_append_cons _ _ _ _ hfront,lay,List.length_append,List.length_singleton,← Nat.add_assoc]
  simp only [List.append_assoc, List.singleton_append]

theorem poke_last (h : off + l.length < dst.length) (x c : UInt8) :
    poke (lay dst off (l ++ [x])) (off + l.length) c = some (lay dst off (l ++ [c])) := by
  have hlen : off + (l ++ [x]).length ≤ dst.length := by
    rw [List.length_append,List.length_singleton]
    omega
  have hfront : (dst.take off ++ l).length = off + l.length := by
    rw [List.length_append,List.length_take,min_eq_left (by omega)]
  rw [poke,if_pos (by rw [length_lay hlen]; exact h)]
  have hsplit : ∀ y, lay dst off (l ++ [y]) = (dst.take off ++ l) ++ y :: dst.drop (off + (l.length + 1)) := by
    intro y
    simp only [lay, List.length_append, List.length_singleton, List.append_assoc, List.singleton_append]
  rw [hsplit,set_append_cons _ _ _ _ hfront,hsplit]

/-- What the copies leave: as much of the text as fits, and a null byte. -/
def placed (dst : List UInt8) (off n : ℕ) (new : List UInt8) : List UInt8 :=
  if n = 0 then dst else lay dst off (new.take (n - 1) ++ [0])

theorem closeOff_spec (hnew : ∀ c ∈ new, p c = some true) (hc : p c = some false) (hn : n ≤ new.length) (hd : off + n ≤ dst.length) :
    closeOff p (new ++ c :: beyond) off n (lay dst off (new.take n)) = some (new.length,placed dst off n new) := by
  have hspan : spanLen p ((new ++ c :: beyond).drop n) = some (new.length - n) := by
    rw [List.drop_append_of_le_length hn,spanLen_append (fun c hc => hnew c (List.mem_of_mem_drop hc)) hc,List.length_drop]
  rw [closeOff,hspan,placed]
  cases n with
  | zero => simp [lay_nil]
  | succ n =>
    have hlen : (new.take n).length = n := List.length_take_of_le (by omega)
    have hlast : poke (lay dst off (new.take n ++ [new[n]])) (off + (new.take n).length) 0 = _ := poke_last (by omega) new[n] 0
    rw [hlen,← List.take_succ_eq_append_getElem (by omega)] at hlast
    rw [if_pos (Nat.succ_ne_zero n),if_neg (Nat.succ_ne_zero n),Nat.add_sub_cancel,show off + (n + 1) - 1 = off + n by omega,hlast]
    show some (n + 1 + (new.length - (n + 1)),_) = some (new.length,_)
    rw [Nat.add_sub_of_le hn]

/-! ## The loops -/

theorem copyLoop_spec (hstr : ∀ c ∈ str, c ≠ 0) (hi : i ≤ str.length) (hd : off + i + n ≤ dst.length) :
    copyLoop (str ++ 0 :: beyond) off n i (lay dst off (str.take i)) =
      some (lay dst off ((str ++ [0]).take (i + n)),i + n - str.length,min str.length (i + n)) := by
  induction n generalizing i with
  | zero =>
    rw [copyLoop,Nat.add_zero,List.take_append_of_le_length hi,Nat.sub_eq_zero_of_le hi,min_eq_right hi]
  | succ n ih =>
    have hlen : (str.take i).length = i := List.length_take_of_le hi
    have hpoke : ∀ c, poke (lay dst off (str.take i)) (off + (str.take i).length) c = some (lay dst off (str.take i ++ [c])) :=
      poke_lay (by omega)
    rw [hlen] at hpoke
    rw [copyLoop]
    rcases Nat.lt_or_ge i str.length with hlt | hge
    · have hget : (str ++ 0 :: beyond)[i]? = some str[i] := by
        rw [List.getElem?_append_left hlt,List.getElem?_eq_getElem hlt]
      rw [hget,Option.bind_eq_bind,Option.bind_some,hpoke,Option.bind_eq_bind,Option.bind_some,
        if_pos (hstr _ (List.getElem_mem hlt)),← List.take_succ_eq_append_getElem hlt,ih hlt (by omega)]
      rw [show i + 1 + n = i + (n + 1) by omega]
    · obtain rfl : i = str.length := by omega
      have hget : (str ++ 0 :: beyond)[str.length]? = some 0 := by
        rw [List.getElem?_append_right le_rfl,Nat.sub_self]
        rfl
      have hall : (str ++ [0]).take (str.length + (n + 1)) = str ++ [0] :=
        List.take_of_length_le (by rw [List.length_append,List.length_singleton]; omega)
      rw [hget,Option.bind_eq_bind,Option.bind_some,hpoke,Option.bind_eq_bind,Option.bind_some,if_neg (by decide),hall,
        List.take_of_length_le le_rfl,Nat.add_sub_cancel_left,min_eq_left (by omega)]
      rfl

theorem spnLoop_spec (hnew : ∀ c ∈ new, csetContains set c = some true) (hc : csetContains set c = some false)
    (hi : i ≤ new.length) (hd : off + i + n ≤ dst.length) :
    spnLoop (new ++ c :: beyond) set off n i (lay dst off (new.take i)) =
      some (lay dst off ((new ++ [0]).take (i + n)),decide (new.length < i + n),min new.length (i + n)) := by
  induction n generalizing i with
  | zero =>
    rw [spnLoop,Nat.add_zero,List.take_append_of_le_length hi,min_eq_right hi,decide_eq_false (not_lt.mpr hi)]
  | succ n ih =>
    have hlen : (new.take i).length = i := List.length_take_of_le hi
    have hpoke : ∀ c, poke (lay dst off (new.take i)) (off + (new.take i).length) c = some (lay dst off (new.take i ++ [c])) :=
      poke_lay (by omega)
    rw [hlen] at hpoke
    rw [spnLoop]
    rcases Nat.lt_or_ge i new.length with hlt | hge
    · have hget : (new ++ c :: beyond)[i]? = some new[i] := by
        rw [List.getElem?_append_left hlt,List.getElem?_eq_getElem hlt]
      rw [hget,Option.bind_eq_bind,Option.bind_some,hnew _ (List.getElem_mem hlt),Option.bind_eq_bind,Option.bind_some,
        if_pos rfl,hpoke,Option.bind_eq_bind,Option.bind_some,← List.take_succ_eq_append_getElem hlt,ih hlt (by omega)]
      rw [show i + 1 + n = i + (n + 1) by omega]
    · obtain rfl : i = new.length := by omega
      have hget : (new ++ c :: beyond)[new.length]? = some c := by
        rw [List.getElem?_append_right le_rfl,Nat.sub_self]
        rfl
      have hall : (new ++ [0]).take (new.length + (n + 1)) = new ++ [0] :=
        List.take_of_length_le (by rw [List.length_append,List.length_singleton]; omega)
      rw [hget,Option.bind_eq_bind,Option.bind_some,hc,Option.bind_eq_bind,Option.bind_some,if_neg Bool.false_ne_true,
        hpoke,Option.bind_eq_bind,Option.bind_some,hall,List.take_of_length_le le_rfl,decide_eq_true (by omega),min_eq_left (by omega)]
      rfl

/-! ## The calls -/

theorem placed_short (h : new.length < n) (dst : List UInt8) (off : ℕ) :
    lay dst off ((new ++ [0]).take (0 + n)) = placed dst off n new := by
  rw [placed,if_neg (by omega),List.take_of_length_le (by rw [List.length_append,List.length_singleton]; omega),
    List.take_of_length_le (show new.length ≤ n - 1 by omega)]

theorem strCopy_placed (hstr : ∀ c ∈ str, c ≠ 0) (hd : off + n ≤ dst.length) :
    strCopy dst off (str ++ 0 :: beyond) n = some (str.length,placed dst off n str) := by
  have hloop : copyLoop (str ++ 0 :: beyond) off n 0 (lay dst off (str.take 0)) = _ := copyLoop_spec hstr (Nat.zero_le _) (by omega)
  rw [List.take_zero,lay_nil] at hloop
  rw [strCopy,hloop,Option.bind_eq_bind,Option.bind_some]
  dsimp only
  rcases Nat.lt_or_ge str.length n with hlt | hge
  · rw [if_neg (by omega),placed_short hlt,Nat.zero_add,min_eq_left hlt.le]
    rfl
  · rw [if_pos (by omega),Nat.zero_add,min_eq_right hge,List.take_append_of_le_length hge]
    exact closeOff_spec (fun c hc => by simpa using hstr c hc) (by rfl) hge hd

theorem strCopySpn_placed (hnew : ∀ c ∈ new, csetContains set c = some true) (hc : csetContains set c = some false)
    (hd : off + n ≤ dst.length) : strCopySpn dst off (new ++ c :: beyond) n set = some (new.length,placed dst off n new) := by
  have hloop : spnLoop (new ++ c :: beyond) set off n 0 (lay dst off (new.take 0)) = _ := spnLoop_spec hnew hc (Nat.zero_le _) (by omega)
  rw [List.take_zero,lay_nil] at hloop
  rw [strCopySpn,hloop,Option.bind_eq_bind,Option.bind_some]
  dsimp only
  rcases Nat.lt_or_ge new.length n with hlt | hge
  · rw [if_pos (by simpa using hlt),placed_short hlt,min_eq_left (by omega)]
    rfl
  · rw [if_neg (by simpa using hge),Nat.zero_add,min_eq_right hge,List.take_append_of_le_length hge]
    exact closeOff_spec hnew hc hge hd

/-- The string in the first `dlen` bytes of a block: what is in front of the null byte, if there is one. -/
def inside (dst : List UInt8) (dlen : ℕ) : List UInt8 := (dst.take dlen).takeWhile (· ≠ 0)

theorem inside_le (hd : dlen ≤ dst.length) : (inside dst dlen).length ≤ dlen := by
  have h := (List.takeWhile_prefix (fun c : UInt8 => decide (c ≠ 0)) (l := dst.take dlen)).length_le
  rwa [List.length_take_of_le hd] at h

theorem inside_prefix (dst : List UInt8) (dlen : ℕ) : inside dst dlen <+: dst := (List.takeWhile_prefix _).trans (List.take_prefix _ _)

theorem endLoop_spec (hd : i + n ≤ dst.length) : endLoop dst n i =
    some (n - (inside (dst.drop i) n).length,i + (inside (dst.drop i) n).length) := by
  induction n generalizing i with
  | zero => simp [endLoop, inside]
  | succ n ih =>
    have hlt : i < dst.length := by omega
    rw [endLoop,List.getElem?_eq_getElem hlt,Option.bind_eq_bind,Option.bind_some,inside,List.drop_eq_getElem_cons hlt,List.take_succ_cons,
      List.takeWhile_cons]
    by_cases hz : dst[i] = 0
    · simp [hz]
    · have ih := ih (i := i + 1) (by omega)
      rw [inside] at ih
      rw [if_pos hz,if_pos (by simpa using hz),List.length_cons,ih,Option.some_inj,Prod.mk.injEq]
      omega

theorem catWith_placed {copy : ℕ → ℕ → Option (ℕ × List UInt8)} (hd : dlen ≤ dst.length) (hspace : dlen + new.length < 2 ^ 64)
    (hcopy : ∀ off n, off + n ≤ dst.length → copy off n = some (new.length,placed dst off n new)) :
    catWith copy dst dlen = some (new.length + (inside dst dlen).length,
      placed dst (inside dst dlen).length (dlen - (inside dst dlen).length) new) := by
  have hle := inside_le hd
  have hend : endLoop dst dlen 0 = _ := endLoop_spec (by omega)
  rw [List.drop_zero,Nat.zero_add] at hend
  rw [catWith,hend,Option.bind_eq_bind,Option.bind_some]
  dsimp only
  rw [hcopy _ _ (by omega),Option.bind_eq_bind,Option.bind_some]
  dsimp only
  rw [if_pos (by omega)]
  rfl

/-- What a call leaves that puts `new` behind `old` in the first `dlen` bytes of a block. -/
structure Joined (dst : List UInt8) (dlen : ℕ) (old new : List UInt8) (r : ℕ) (dst' : List UInt8) : Prop where
  ret : r = old.length + new.length
  length : dst'.length = dst.length
  outside : ∀ i ≥ dlen, dst'[i]? = dst[i]?
  text : old.length < dlen → ∃ rest, dst'.take dlen = (old ++ new).take (dlen - 1) ++ 0 :: rest
  full : dlen ≤ old.length → dst' = dst

theorem placed_joined (hd : dlen ≤ dst.length) (hold : old.length ≤ dlen) (hpre : old <+: dst) :
    Joined dst dlen old new (new.length + old.length) (placed dst old.length (dlen - old.length) new) := by
  have htake : dst.take old.length = old := (List.prefix_iff_eq_take.mp hpre).symm
  rw [placed]
  split
  · exact ⟨Nat.add_comm _ _,rfl,fun _ _ => rfl,fun h => by lia,fun _ => rfl⟩
  · rename_i hroom
    have hlen : (new.take (dlen - old.length - 1) ++ [0]).length ≤ dlen - old.length := by
      rw [List.length_append,List.length_take,List.length_singleton]
      lia
    refine ⟨Nat.add_comm _ _,length_lay (by lia),fun i hi => ?_,fun _ => ?_,fun h => by lia⟩
    · rw [lay,Buffer.getElem?_write (by lia),if_neg (by lia)]
    · have hfront : ((old ++ new).take (dlen - 1)).length < dlen := by
        rw [List.length_take]
        lia
      have hsame : (old ++ new).take (dlen - 1) = old ++ new.take (dlen - old.length - 1) := by
        rw [List.take_append,List.take_of_length_le
            (show old.length ≤ dlen - 1 by lia),show dlen - 1 - old.length = dlen - old.length - 1 by lia]
      rw [lay,htake,← List.append_assoc,← hsame,List.append_assoc,List.take_append,List.take_of_length_le hfront.le]
      obtain ⟨k,hk⟩ : ∃ k, dlen - ((old ++ new).take (dlen - 1)).length = k + 1 := ⟨_,(Nat.succ_pred_eq_of_pos (by lia)).symm⟩
      rw [hk]
      exact ⟨_,rfl⟩

/-- The four copies, for a set that does not hold the null byte: the string that is in the destination already and
as much of the new one as fits, and nothing where the destination holds no string. -/
theorem copies_joined (dst str beyond set : List UInt8) (dlen : ℕ) (hd : dlen ≤ dst.length) (hstr : (0 : UInt8) ∉ str)
    (hset : set.length = 32) (hnul : csetContains set 0 = some false) (hspace : dlen + str.length < 2 ^ 64) :
    let spn := str.takeWhile fun c => csetContains set c == some true
    (∃ r dst', strCopy dst 0 (str ++ 0 :: beyond) dlen = some (r,dst') ∧ Joined dst dlen [] str r dst') ∧
    (∃ r dst', strCat dst (str ++ 0 :: beyond) dlen = some (r,dst') ∧ Joined dst dlen (inside dst dlen) str r dst') ∧
    (∃ r dst', strCopySpn dst 0 (str ++ 0 :: beyond) dlen set = some (r,dst') ∧ Joined dst dlen [] spn r dst') ∧
    ∃ r dst', strCatSpn dst (str ++ 0 :: beyond) dlen set = some (r,dst') ∧ Joined dst dlen (inside dst dlen) spn r dst' := by
  intro spn
  have hne : ∀ c ∈ str, c ≠ 0 := fun c hc hz => hstr (hz ▸ hc)
  have hpre := inside_prefix dst dlen
  have hle : spn.length ≤ str.length := (List.takeWhile_prefix _).length_le
  have hspn : ∀ c ∈ spn, csetContains set c = some true := fun c hc => by simpa using List.all_eq_true.mp List.all_takeWhile c hc
  -- the source behind what is taken begins with a character that is not in the set
  obtain ⟨c,rest,hsrc,hc⟩ : ∃ c rest, str ++ 0 :: beyond = spn ++ c :: rest ∧ csetContains set c = some false := by
    rcases hdrop : str.dropWhile fun c => csetContains set c == some true with _ | ⟨c,rest⟩
    · refine ⟨0,beyond,?_,hnul⟩
      have hsplit := List.takeWhile_append_dropWhile (p := fun c => csetContains set c == some true) (l := str)
      rw [hdrop,List.append_nil] at hsplit
      rw [show spn = str from hsplit]
    · have hsplit := List.takeWhile_append_dropWhile (p := fun c => csetContains set c == some true) (l := str)
      rw [hdrop] at hsplit
      refine ⟨c,rest ++ 0 :: beyond,?_,csetContains_false hset fun h => ?_⟩
      · rw [← hsplit,List.append_assoc,List.cons_append]
      · have hhead := List.head?_dropWhile_not (fun c => csetContains set c == some true) str
        rw [hdrop] at hhead
        simp [h] at hhead
  refine ⟨⟨_,_,strCopy_placed hne (by omega),?_⟩,⟨_,_,catWith_placed hd hspace fun off n h => strCopy_placed hne h,?_⟩,?_,?_⟩
  · exact placed_joined hd (Nat.zero_le _) List.nil_prefix
  · exact placed_joined hd (inside_le hd) hpre
  · rw [hsrc]
    exact ⟨_,_,strCopySpn_placed hspn hc (by omega),placed_joined hd (Nat.zero_le _) List.nil_prefix⟩
  · rw [hsrc]
    exact ⟨_,_,catWith_placed hd (by omega) fun off n h => strCopySpn_placed hspn hc h,placed_joined hd (inside_le hd) hpre⟩

theorem copies_joined_four : let set := csetInitAccept [66,67]
    let spn := [66,67,68].takeWhile fun c => csetContains set c == some true
    (∃ r dst', strCopy [65,0,7,7] 0 ([66,67,68] ++ 0 :: [9]) 4 = some (r,dst') ∧ Joined [65,0,7,7] 4 [] [66,67,68] r dst') ∧
    (∃ r dst', strCat [65,0,7,7] ([66,67,68] ++ 0 :: [9]) 4 = some (r,dst') ∧
      Joined [65,0,7,7] 4 (inside [65,0,7,7] 4) [66,67,68] r dst') ∧
    (∃ r dst', strCopySpn [65,0,7,7] 0 ([66,67,68] ++ 0 :: [9]) 4 set = some (r,dst') ∧ Joined [65,0,7,7] 4 [] spn r dst') ∧
    ∃ r dst', strCatSpn [65,0,7,7] ([66,67,68] ++ 0 :: [9]) 4 set = some (r,dst') ∧
      Joined [65,0,7,7] 4 (inside [65,0,7,7] 4) spn r dst' :=
  copies_joined [65,0,7,7] [66,67,68] [9] (csetInitAccept [66,67]) 4 (by decide) (by decide) (by decide) (by decide) (by decide)

/-- A destination of one byte that holds no null byte is left as it is, without one. -/
theorem strCat_unterminated : strCat [65] [0] 1 = some (1,[65]) ∧ ¬∃ i < 1, ([65] : List UInt8)[i]? = some 0 := by
  refine ⟨by decide,?_⟩
  rintro ⟨i,hi,h⟩
  obtain rfl : i = 0 := by omega
  exact absurd h (by decide)

end Catlib.Text
