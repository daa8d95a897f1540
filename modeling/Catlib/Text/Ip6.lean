import Catlib.Logic.CLiteral
import Catlib.Logic.Pieces
import Catlib.Text.Copy

/-! # Addresses of IPv6 in str.c

`str_parse_ip6a` reads groups to a `::`, and then groups to the end. The address is the first sixteen
bytes of a block, and the groups behind the `::` are collected in another one.
-/
namespace Catlib.Text
open Catlib.CLit (isHex numeral digitVal forall_byte)
open Peg (csetContains)
open Peg.Parser (csetAdd csetAdd_length csetContains_add)

/-! ## The code -/

def colon : UInt8 := 58

def chnval (d : UInt8) : UInt8 := if isDigit d then d - 48 else if isAlpha d then 10 + toUpper d - 65 else 0

/-- The characters of "abcdefABCDEF0123456789". -/
def hexChars : List UInt8 :=
  [97,98,99,100,101,102,65,66,67,68,69,70,48,49,50,51,52,53,54,55,56,57]

def hexSet : List UInt8 := csetInitAccept hexChars

def ip6aSet : List UInt8 := csetAdd hexSet colon

/-- The cases of both switches. `clear` is whether the first cell is set where the digits leave it out. -/
def putGroup (clear : Bool) (cells : List UInt8) (i : ℕ) (p : List UInt8) (spn : ℕ) : Option (List UInt8) := do
  let cells ← if clear ∧ spn ≤ 2 then poke cells i 0 else some cells
  match spn with
  | 1 => poke cells (i + 1) (chnval (← p[0]?))
  | 2 => poke cells (i + 1) (chnval (← p[0]?) <<< 4 ||| chnval (← p[1]?))
  | 3 =>
    let cells ← poke cells i (chnval (← p[0]?))
    poke cells (i + 1) (chnval (← p[1]?) <<< 4 ||| chnval (← p[2]?))
  | _ =>
    let cells ← poke cells i (chnval (← p[0]?) <<< 4 ||| chnval (← p[1]?))
    poke cells (i + 1) (chnval (← p[2]?) <<< 4 ||| chnval (← p[3]?))

/-- A loop over groups from the place `p` on, where `used` cells are taken by others: the place where it
stops, the number of its cells and the cells, or only the cells where the function returns -1. -/
def groupLoop (clear : Bool) (used : ℕ) (src : List UInt8) : ℕ → ℕ → ℕ → List UInt8 →
    Option (Except (List UInt8) (ℕ × ℕ × List UInt8))
  | 0, _, _, _ => none
  | fuel + 1, p, len, cells => do
    let spn ← strSpn (src.drop p) hexSet
    if spn = 0 then return .ok (p,len,cells)
    if used + len ≥ 16 ∨ spn > 4 then return .error cells
    let cells ← putGroup clear cells len (src.drop p) spn
    let c ← src[p + spn]?
    if c = colon then groupLoop clear used src fuel (p + spn + 1) (len + 2) cells
    else if c = 0 then return .ok (p + spn,len + 2,cells)
    else none

/-- The loop that moves the suffix to the end of the address. -/
def suffixLoop (suffix : List UInt8) (slen : ℕ) : ℕ → ℕ → List UInt8 → Option (List UInt8)
  | 0, _, addr => some addr
  | n + 1, i, addr => do suffixLoop suffix slen n (i + 1) (← poke addr (16 - slen + i) (← suffix[i]?))

/-- What follows the second loop. -/
def putSuffix (addr : List UInt8) : Except (List UInt8) (ℕ × ℕ × List UInt8) → Option (ℤ × List UInt8)
  | .error _ => some (-1,addr)
  | .ok (p,slen,suffix) =>
    if slen ≤ 14 then do
      let addr ← suffixLoop suffix slen slen 0 addr
      if 2 ≤ p ∧ p ≤ 39 then some ((p : ℤ),addr) else none
    else none

/-- What follows the first loop, at the place `p` with `plen` cells of the address. -/
def parseSuffix (suffix src addr : List UInt8) (p plen : ℕ) : Option (ℤ × List UInt8) := do
  let c ← src[p]?
  if c ≠ 0 ∧ plen = 16 then return (-1,addr)
  let (p,zcomp) := if c ≠ 0 then (p + ((if p = 0 then 1 else 0) + 1),2) else (p,0)
  putSuffix addr (← groupLoop true (plen + zcomp) src src.length p 0 suffix)

/-- What follows the first loop, when it has not made the function return. -/
def afterPrefix (suffix src : List UInt8) : Except (List UInt8) (ℕ × ℕ × List UInt8) → Option (ℤ × List UInt8)
  | .error addr => some (-1,addr)
  | .ok (p,plen,addr) => parseSuffix suffix src addr p plen

def memset (mem : List UInt8) (c : UInt8) (n : ℕ) : Option (List UInt8) :=
  if n ≤ mem.length then some (List.replicate n c ++ mem.drop n) else none

/-- `str_parse_ip6a`, with what the array for the suffix holds. -/
def strParseIp6a (ap suffix src : List UInt8) : Option (ℤ × List UInt8) := do
  let spn ← strSpn src ip6aSet
  if spn < 2 ∨ spn > 39 ∨ (← src[spn]?) ≠ 0 then return (-1,ap)
  if (← src[0]?) = colon ∧ (← src[1]?) ≠ colon then return (-1,ap)
  afterPrefix suffix src (← groupLoop false 0 src src.length 0 0 (← memset ap 0 16))

/-! ## What an address is -/

/-- A group of one to four hexadecimal digits. -/
def IsGroup (g : List UInt8) : Prop := g ≠ [] ∧ g.length ≤ 4 ∧ ∀ c ∈ g, isHex c = true

/-- The two bytes of a group. -/
def groupBytes (g : List UInt8) : List UInt8 := [.ofNat (numeral 16 g / 256),.ofNat (numeral 16 g)]

/-- A textual address and its bytes: eight groups, or fewer with a `::` in the place of the missing ones. -/
inductive IsIp6 : List UInt8 → List UInt8 → Prop
  | full {gs} : (∀ g ∈ gs, IsGroup g) → gs.length = 8 → IsIp6 (joined colon gs) (gs.flatMap groupBytes)
  | short {as bs} : (∀ g ∈ as ++ bs, IsGroup g) → as.length + bs.length < 8 →
    IsIp6 (joined colon as ++ colon :: colon :: joined colon bs)
      (as.flatMap groupBytes ++ List.replicate (16 - 2 * (as.length + bs.length)) 0 ++ bs.flatMap groupBytes)

variable {ap suffix src str more cells w f addr g p : List UInt8} {as bs gs ps left : List (List UInt8)} {c d : UInt8}
variable {clear : Bool} {used fuel at' len i n : ℕ}

/-! ## Characters -/

theorem hexChars_spec : ∀ c, c ∈ hexChars ↔ isHex c = true := forall_byte (by decide +kernel)

theorem hexSet_contains (c : UInt8) : csetContains hexSet c = some true ↔ isHex c = true :=
  ((csetInitAccept_spec hexChars).2 c).trans (hexChars_spec c)

theorem hexSet_stops (h : isHex c = false) : csetContains hexSet c = some false :=
  csetContains_false (csetInitAccept_spec hexChars).1 fun hc => by simp [(hexSet_contains c).mp hc] at h

theorem ip6aSet_contains (c : UInt8) : csetContains ip6aSet c = some true ↔ isHex c = true ∨ c = colon := by
  rw [← hexSet_contains c,or_comm]
  exact csetContains_add (csetInitAccept_spec hexChars).1 colon c

theorem chnval_spec (h : isHex c = true) : (chnval c).toNat = digitVal c ∧ digitVal c < 16 := by
  have key : (hexChars.all fun c => decide ((chnval c).toNat = digitVal c ∧ digitVal c < 16)) = true := by decide
  exact of_decide_eq_true (List.all_eq_true.mp key c ((hexChars_spec c).mpr h))

theorem isHex_ne (h : isHex c = true) : c ≠ colon ∧ c ≠ 0 := by
  constructor <;> rintro rfl <;> exact absurd h (by decide)

theorem isHex_colon : isHex colon = false := by decide

theorem isHex_zero : isHex 0 = false := by decide

theorem two_digits (hc : isHex c = true) (hd : isHex d = true) : chnval c <<< 4 ||| chnval d = .ofNat (16 * digitVal c + digitVal d) := by
  obtain ⟨hc,hclt⟩ := chnval_spec hc
  obtain ⟨hd,hdlt⟩ := chnval_spec hd
  apply UInt8.toNat_inj.mp
  rw [UInt8.toNat_or,UInt8.toNat_shiftLeft,hc,hd,UInt8.toNat_ofNat']
  rw [show (4 : UInt8).toNat % 8 = 4 from rfl,Nat.mod_eq_of_lt (by rw [Nat.shiftLeft_eq]; omega),
    ← Nat.shiftLeft_add_eq_or_of_lt (show digitVal d < 2 ^ 4 from hdlt),Nat.shiftLeft_eq]
  omega

/-! ## Groups -/

theorem groupBytes_eq (hi lo : ℕ) (h : numeral 16 g = 256 * hi + lo) (hlo : lo < 256) : groupBytes g = [.ofNat hi,.ofNat lo] := by
  rw [groupBytes,h,show (256 * hi + lo) / 256 = hi by omega]
  congr 2
  apply UInt8.toNat_inj.mp
  simp only [UInt8.toNat_ofNat']
  omega

theorem one_digit (hc : isHex c = true) : chnval c = .ofNat (digitVal c) := by
  obtain ⟨hc,hlt⟩ := chnval_spec hc
  rw [← hc,UInt8.ofNat_toNat]

theorem putGroup_spec (hg : IsGroup g) (hw : w.length = i) {x y : UInt8} (hx : clear = true ∨ x = 0) (t : List UInt8) :
    putGroup clear (w ++ x :: y :: f) i (g ++ t) g.length = some (w ++ groupBytes g ++ f) := by
  obtain ⟨hne,hlen,hhex⟩ := hg
  match g, hne, hlen with
  | [a], _, _ =>
    simp only [List.forall_mem_cons] at hhex
    obtain ⟨ha,-⟩ := hhex
    have halt := (chnval_spec ha).2
    rw [groupBytes_eq 0 (digitVal a) (by simp [numeral]) (by omega)]
    obtain rfl | rfl := hx <;> simp [putGroup, poke_head hw, poke_next hw, one_digit ha]
  | [a,b], _, _ =>
    simp only [List.forall_mem_cons] at hhex
    obtain ⟨ha,hb,-⟩ := hhex
    have halt := (chnval_spec ha).2
    have hblt := (chnval_spec hb).2
    rw [groupBytes_eq 0 (16 * digitVal a + digitVal b) (by simp [numeral]) (by omega)]
    obtain rfl | rfl := hx <;> simp [putGroup, poke_head hw, poke_next hw, two_digits ha hb]
  | [a,b,c], _, _ =>
    simp only [List.forall_mem_cons] at hhex
    obtain ⟨ha,hb,hc,-⟩ := hhex
    have hblt := (chnval_spec hb).2
    have hclt := (chnval_spec hc).2
    rw [groupBytes_eq (digitVal a) (16 * digitVal b + digitVal c) (by simp [numeral]; omega) (by omega)]
    simp [putGroup, poke_head hw, poke_next hw, one_digit ha, two_digits hb hc]
  | [a,b,c,d], _, _ =>
    simp only [List.forall_mem_cons] at hhex
    obtain ⟨ha,hb,hc,hd,-⟩ := hhex
    have hclt := (chnval_spec hc).2
    have hdlt := (chnval_spec hd).2
    rw [groupBytes_eq (16 * digitVal a + digitVal b) (16 * digitVal c + digitVal d)
      (by simp [numeral]; omega) (by omega)]
    simp [putGroup, poke_head hw, poke_next hw, two_digits ha hb, two_digits hc hd]

/-! ## The loops -/

variable {front rest : List (List UInt8)} {place : ℕ}

theorem strSpn_hex (hg : ∀ c ∈ g, isHex c = true) (hc : isHex c = false) (t : List UInt8) : strSpn (g ++ c :: t) hexSet = some g.length :=
  spanLen_append (fun c h => (hexSet_contains c).mpr (hg c h)) (hexSet_stops hc)

theorem groupLoop_group (hsrc : src.drop place = g ++ c :: p) (hg : IsGroup g) (hc : isHex c = false) (hroom : used + len < 16)
    (hw : w.length = len) {x y : UInt8} (hx : clear = true ∨ x = 0) :
    groupLoop clear used src (fuel + 1) place len (w ++ x :: y :: f) =
      if c = colon then groupLoop clear used src fuel (place + g.length + 1) (len + 2) (w ++ groupBytes g ++ f)
      else if c = 0 then some (.ok (place + g.length,len + 2,w ++ groupBytes g ++ f)) else none := by
  have hnext : src[place + g.length]? = some c := by
    rw [← List.getElem?_drop,hsrc,List.getElem?_append_right le_rfl,Nat.sub_self]
    rfl
  have hne : g.length ≠ 0 := fun h => hg.1 (List.length_eq_zero_iff.mp h)
  rw [groupLoop,hsrc,strSpn_hex hg.2.2 hc,Option.bind_eq_bind,Option.bind_some,if_neg hne,
    if_neg (by have := hg.2.1; omega),putGroup_spec hg hw hx,Option.bind_eq_bind,Option.bind_some,hnext]
  rfl

theorem groupLoop_stop (hsrc : src.drop place = c :: p) (hc : isHex c = false) :
    groupLoop clear used src (fuel + 1) place len cells = some (.ok (place,len,cells)) := by
  rw [groupLoop,hsrc,show c :: p = [] ++ c :: p from rfl,strSpn_hex (by simp) hc]
  rfl

theorem groupLoop_bad (hsrc : src.drop place = g ++ c :: p) (hg : g ≠ []) (hhex : ∀ c ∈ g, isHex c = true) (hc : isHex c = false)
    (hbad : used + len ≥ 16 ∨ g.length > 4) : groupLoop clear used src (fuel + 1) place len cells = some (.error cells) := by
  have hne : g.length ≠ 0 := fun h => hg (List.length_eq_zero_iff.mp h)
  rw [groupLoop,hsrc,strSpn_hex hhex hc,Option.bind_eq_bind,Option.bind_some,if_neg hne,if_pos hbad]
  rfl

theorem pieces_cases (g : List UInt8) (ps : List (List UInt8)) (more : List UInt8) :
    (ps = [] ∧ joined colon (g :: ps) ++ 0 :: more = g ++ 0 :: more) ∨
      (ps ≠ [] ∧ joined colon (g :: ps) ++ 0 :: more = g ++ colon :: (joined colon ps ++ 0 :: more)) := by
  obtain rfl | hps := eq_or_ne ps []
  · exact .inl ⟨rfl,by rw [joined_singleton]⟩
  · exact .inr ⟨hps,by rw [joined_cons hps,List.append_assoc,List.cons_append]⟩

/-- The cells that a loop fills: there are as many as an address needs, and they are clear where nothing clears them. -/
def Fillable (clear : Bool) (len : ℕ) (f : List UInt8) : Prop :=
  16 ≤ len + f.length ∧ (clear = true ∨ ∀ x ∈ f.take (16 - len), x = 0)

theorem Fillable.next (h : Fillable clear len f) (hlen : len + 2 ≤ 16) :
    ∃ x y f', f = x :: y :: f' ∧ (clear = true ∨ x = 0) ∧ Fillable clear (len + 2) f' := by
  obtain ⟨hsize,hzero⟩ := h
  match f, hsize with
  | [], hsize => simp at hsize; omega
  | [_], hsize => simp at hsize; omega
  | x :: y :: f', hsize =>
    rw [show 16 - len = 16 - (len + 2) + 1 + 1 by omega,List.take_succ_cons,List.take_succ_cons] at hzero
    refine ⟨x,y,f',rfl,hzero.imp_right fun h => h x List.mem_cons_self,by simp at hsize; omega,hzero.imp_right fun h z hz => ?_⟩
    exact h z (List.mem_cons_of_mem _ (List.mem_cons_of_mem _ hz))

theorem groupLoop_good (hsrc : src.drop place = joined colon ps ++ 0 :: more) (hps : ps ≠ []) (hhex : ∀ g ∈ ps, ∀ c ∈ g, isHex c = true)
    (hF : Fronts ps front rest) (hfuel : front.length < fuel) (hgood : ∀ g ∈ front, g.length ≤ 4)
    (hroom : used + len + 2 * front.length ≤ 16) (hw : w.length = len) (hf : Fillable clear len f) :
    groupLoop clear used src fuel place len (w ++ f) = some (.ok (place + (joined colon ps).length - (joined colon rest).length,
      len + 2 * front.length,w ++ front.flatMap groupBytes ++ f.drop (2 * front.length))) := by
  induction front generalizing ps place len w f fuel with
  | nil =>
    obtain ⟨fuel,rfl⟩ : ∃ k, fuel = k + 1 := ⟨fuel - 1,by lia⟩
    obtain rfl : ps = rest := hF.eq
    obtain rfl | ⟨l,rfl⟩ := hF.rest_cases
    · exact absurd rfl hps
    rw [Nat.add_sub_cancel,List.flatMap_nil,List.append_nil]
    obtain ⟨-,h⟩ | ⟨-,h⟩ := pieces_cases [] l more
    · exact groupLoop_stop (hsrc.trans h) isHex_zero
    · exact groupLoop_stop (hsrc.trans h) isHex_colon
  | cons g front ih =>
    obtain ⟨fuel,rfl⟩ : ∃ k, fuel = k + 1 := ⟨fuel - 1,by lia⟩
    obtain rfl := hF.eq
    rw [List.forall_mem_cons] at hgood
    rw [List.cons_append,List.forall_mem_cons] at hhex
    rw [List.length_cons] at hroom hfuel ⊢
    have hg : IsGroup g := ⟨fun h => hF.full (h ▸ List.mem_cons_self),hgood.1,hhex.1⟩
    have hF' : Fronts (front ++ rest) front rest := ⟨rfl,fun h => hF.full (List.mem_cons_of_mem _ h),hF.stop⟩
    obtain ⟨x,y,f,rfl,hx,hf⟩ := hf.next (by lia)
    have hw' : (w ++ groupBytes g).length = len + 2 := by rw [List.length_append,hw]; rfl
    obtain ⟨hnil,h⟩ | ⟨hne,h⟩ := pieces_cases g (front ++ rest) more
    · obtain ⟨rfl,rfl⟩ := List.append_eq_nil_iff.mp hnil
      rw [groupLoop_group (hsrc.trans h) hg isHex_zero (by lia) hw hx]
      simp [colon, joined_singleton]
    · have hsrc' := hsrc.trans h
      have hrest : src.drop (place + g.length + 1) = joined colon (front ++ rest) ++ 0 :: more := by
        rw [← List.drop_drop,← List.drop_drop,hsrc',List.drop_left]
        rfl
      rw [groupLoop_group hsrc' hg isHex_colon (by lia) hw hx,if_pos rfl,
        ih hrest hne hhex.2 hF' (Nat.lt_of_succ_lt_succ hfuel) hgood.2 (by lia) hw' hf]
      have hplace : place + g.length + 1 + (joined colon (front ++ rest)).length =
          place + (joined colon (g :: (front ++ rest))).length := by
        rw [joined_cons hne,List.length_append,List.length_cons]
        lia
      rw [hplace,Nat.add_right_comm len,Nat.add_assoc len,List.flatMap_cons,← List.append_assoc w]
      rfl

theorem drop_behind {a b : List UInt8} (h : a.length = b.length) (ha : a.length ≤ 16) (f : List UInt8) :
    (a ++ f).drop 16 = (b ++ f).drop 16 := by
  rw [List.drop_append,List.drop_append,List.drop_eq_nil_of_le ha,List.drop_eq_nil_of_le (h ▸ ha : b.length ≤ 16),h]

theorem groupLoop_fails (hsrc : src.drop place = joined colon ps ++ 0 :: more) (hhex : ∀ g ∈ ps, ∀ c ∈ g, isHex c = true)
    (hF : Fronts ps front rest) (hfuel : front.length < fuel) (hbad : (∃ g ∈ front, 4 < g.length) ∨ 16 < used + len + 2 * front.length)
    (hroom : used + len ≤ 16) (heven : 2 ∣ used + len) (hw : w.length = len) (hf : Fillable clear len f) :
    ∃ cells, groupLoop clear used src fuel place len (w ++ f) = some (.error cells) ∧ cells.length = (w ++ f).length ∧
      cells.drop 16 = (w ++ f).drop 16 := by
  induction front generalizing ps place len w f fuel with
  | nil =>
    obtain ⟨g,hg,-⟩ | h := hbad
    · exact absurd hg List.not_mem_nil
    · simp at h
      lia
  | cons g front ih =>
    obtain ⟨fuel,rfl⟩ : ∃ k, fuel = k + 1 := ⟨fuel - 1,by lia⟩
    obtain rfl := hF.eq
    rw [List.cons_append,List.forall_mem_cons] at hhex
    rw [List.length_cons] at hfuel hbad
    have hne : g ≠ [] := fun h => hF.full (h ▸ List.mem_cons_self)
    by_cases hnow : used + len ≥ 16 ∨ g.length > 4
    · refine ⟨w ++ f,?_,rfl,rfl⟩
      obtain ⟨-,h⟩ | ⟨-,h⟩ := pieces_cases g (front ++ rest) more
      · exact groupLoop_bad (hsrc.trans h) hne hhex.1 isHex_zero hnow
      · exact groupLoop_bad (hsrc.trans h) hne hhex.1 isHex_colon hnow
    push Not at hnow
    have hbad : (∃ g ∈ front, 4 < g.length) ∨ 16 < used + (len + 2) + 2 * front.length := by
      refine hbad.imp (fun ⟨g',hg',hlong⟩ => ⟨g',?_,hlong⟩) fun h => by lia
      exact (List.mem_cons.mp hg').resolve_left fun h => by subst h; lia
    have hg : IsGroup g := ⟨hne,hnow.2,hhex.1⟩
    have hF' : Fronts (front ++ rest) front rest := ⟨rfl,fun h => hF.full (List.mem_cons_of_mem _ h),hF.stop⟩
    obtain ⟨x,y,f,rfl,hx,hf⟩ := hf.next (by lia)
    have hw' : (w ++ groupBytes g).length = len + 2 := by rw [List.length_append,hw]; rfl
    obtain ⟨hnil,h⟩ | ⟨-,h⟩ := pieces_cases g (front ++ rest) more
    · obtain ⟨rfl,rfl⟩ := List.append_eq_nil_iff.mp hnil
      obtain ⟨g',hg',-⟩ | h := hbad
      · exact absurd hg' List.not_mem_nil
      · simp at h
        lia
    · have hsrc' := hsrc.trans h
      have hrest : src.drop (place + g.length + 1) = joined colon (front ++ rest) ++ 0 :: more := by
        rw [← List.drop_drop,← List.drop_drop,hsrc',List.drop_left]
        rfl
      obtain ⟨cells,hrun,hlen,hdrop⟩ := ih hrest hhex.2 hF' (Nat.lt_of_succ_lt_succ hfuel) hbad (by lia) (by lia) hw' hf
      refine ⟨cells,?_,?_,?_⟩
      · rw [groupLoop_group hsrc' hg isHex_colon (by lia) hw hx,if_pos rfl,hrun]
      · rw [hlen]
        simp [groupBytes]
      · rw [hdrop,show w ++ x :: y :: f = w ++ [x,y] ++ f by simp]
        exact drop_behind (by simp [groupBytes]) (by lia) f

/-! ## The suffix -/

theorem suffixLoop_spec {b junk : List UInt8} (hb : b.length = len) (hlen : len ≤ 16) (ha : 16 ≤ addr.length) (hi : n + i = len) :
    suffixLoop (b ++ junk) len n i (lay addr (16 - len) (b.take i)) = some (lay addr (16 - len) b) := by
  induction n generalizing i with
  | zero => rw [suffixLoop,List.take_of_length_le (by omega)]
  | succ n ih =>
    have hread : (b ++ junk)[i]? = some b[i] := by
      rw [List.getElem?_append_left (by omega),List.getElem?_eq_getElem]
    have hwrite : poke (lay addr (16 - len) (b.take i)) (16 - len + i) b[i] = some (lay addr (16 - len) (b.take (i + 1))) := by
      have h : poke (lay addr (16 - len) (b.take i)) _ b[i] = _ := poke_lay (by rw [List.length_take]; omega) b[i]
      rwa [List.length_take,Nat.min_eq_left (by omega),List.take_concat_get' b i (by omega)] at h
    rw [suffixLoop,hread,Option.bind_eq_bind,Option.bind_some,hwrite,Option.bind_eq_bind,Option.bind_some]
    exact ih (by omega)

theorem parseSuffix_end (hsrc : src.drop place = 0 :: more) (hplace : 2 ≤ place ∧ place ≤ 39) :
    parseSuffix suffix src addr place len = some ((place : ℤ),addr) := by
  have hc : src[place]? = some 0 := by
    have h : (src.drop place)[0]? = some 0 := by rw [hsrc]; rfl
    rwa [List.getElem?_drop] at h
  have hfuel : ∃ k, src.length = k + 1 := ⟨src.length - 1,by have := (List.getElem?_eq_some_iff.mp hc).1; omega⟩
  obtain ⟨k,hk⟩ := hfuel
  simp [parseSuffix, hc, hk, groupLoop_stop hsrc isHex_zero, putSuffix, suffixLoop, hplace]

theorem parseSuffix_full (hc : src[place]? = some colon) : parseSuffix suffix src addr place 16 = some (-1,addr) := by
  simp [parseSuffix, hc, colon]

/-- The place behind a `::` whose second colon, or whose first where nothing is in front of it, is at `place`. -/
def behind (place : ℕ) : ℕ := place + ((if place = 0 then 1 else 0) + 1)

theorem parseSuffix_behind (hc : src[place]? = some colon) (hlen : len ≠ 16) : parseSuffix suffix src addr place len =
    (groupLoop true (len + 2) src src.length (behind place) 0 suffix).bind (putSuffix addr) := by
  rw [parseSuffix,hc,Option.bind_eq_bind,Option.bind_some,if_neg fun h => hlen h.2]
  rfl

theorem fuel_enough (hsrc : src.drop place = joined colon ps ++ 0 :: more) (hF : Fronts ps front rest) : front.length < src.length := by
  have hle : front.length ≤ (joined colon ps).length := hF.length_le
  have h := congrArg List.length hsrc
  rw [List.length_drop,List.length_append,List.length_cons] at h
  omega

variable {bytes outer : List UInt8}

theorem lay_suffix {b : List UInt8} (hlen : bytes.length + b.length ≤ 16) :
    lay (bytes ++ List.replicate (16 - bytes.length) 0 ++ outer) (16 - b.length) b =
      bytes ++ List.replicate (16 - (bytes.length + b.length)) 0 ++ b ++ outer := by
  have hsplit : List.replicate (16 - bytes.length) (0 : UInt8) =
      List.replicate (16 - (bytes.length + b.length)) 0 ++ List.replicate b.length 0 := by
    rw [List.replicate_append_replicate]
    congr 1
    omega
  have htake : (bytes ++ List.replicate (16 - (bytes.length + b.length)) 0).length = 16 - b.length := by
    rw [List.length_append,List.length_replicate]
    omega
  rw [lay,hsplit,← List.append_assoc,← htake,List.append_assoc _ _ outer,List.take_left,List.drop_append]
  simp

theorem length_flatMap_groupBytes (gs : List (List UInt8)) : (gs.flatMap groupBytes).length = 2 * gs.length := by
  induction gs with
  | nil => rfl
  | cons g gs ih =>
    rw [List.flatMap_cons,List.length_append,ih,List.length_cons]
    simp [groupBytes]
    omega

theorem parseSuffix_groups (hc : src[place]? = some colon) (hsrc : src.drop (behind place) = joined colon ps ++ 0 :: more) (hps : ps ≠ [])
    (hhex : ∀ g ∈ ps, ∀ c ∈ g, isHex c = true) (hF : Fronts ps front rest) (hgood : ∀ g ∈ front, g.length ≤ 4)
    (hroom : bytes.length + 2 + 2 * front.length ≤ 16) (hsuf : suffix.length = 16)
    (hplace : let p := behind place + (joined colon ps).length - (joined colon rest).length; 2 ≤ p ∧ p ≤ 39) :
    parseSuffix suffix src (bytes ++ List.replicate (16 - bytes.length) 0 ++ outer) place bytes.length =
      some (((behind place + (joined colon ps).length - (joined colon rest).length : ℕ) : ℤ),
        bytes ++ List.replicate (16 - (bytes.length + 2 * front.length)) 0 ++ front.flatMap groupBytes ++ outer) := by
  have hlen := length_flatMap_groupBytes front
  have hrun : groupLoop true (bytes.length + 2) src src.length (behind place) 0 ([] ++ suffix) = _ :=
    groupLoop_good hsrc hps hhex hF (fuel_enough hsrc hF) hgood hroom rfl ⟨by omega,.inl rfl⟩
  rw [List.nil_append,List.nil_append,Nat.zero_add] at hrun
  rw [parseSuffix_behind hc (by omega),hrun,Option.bind_some,putSuffix,if_pos (by omega)]
  have hput : suffixLoop (front.flatMap groupBytes ++ suffix.drop (2 * front.length)) _ _ 0
      (lay (bytes ++ List.replicate (16 - bytes.length) 0 ++ outer) _ (List.take 0 _)) = _ :=
    suffixLoop_spec hlen (by omega) (by simp; omega) (Nat.add_zero _)
  rw [List.take_zero,lay_nil,← hlen,lay_suffix (by omega)] at hput
  rw [← hlen,hput,Option.bind_eq_bind,Option.bind_some,if_pos hplace]

theorem parseSuffix_fails (hc : src[place]? = some colon) (hsrc : src.drop (behind place) = joined colon ps ++ 0 :: more)
    (hhex : ∀ g ∈ ps, ∀ c ∈ g, isHex c = true) (hF : Fronts ps front rest)
    (hbad : (∃ g ∈ front, 4 < g.length) ∨ 16 < len + 2 + 2 * front.length) (hlen : len + 2 ≤ 16) (heven : 2 ∣ len)
    (hsuf : suffix.length = 16) :
    parseSuffix suffix src addr place len = some (-1,addr) := by
  obtain ⟨cells,hrun,-⟩ : ∃ cells, groupLoop true (len + 2) src src.length (behind place) 0 ([] ++ suffix) = some (.error cells) ∧ _ ∧ _ :=
    groupLoop_fails hsrc hhex hF (fuel_enough hsrc hF) hbad hlen (by omega) rfl ⟨by omega,.inl rfl⟩
  rw [List.nil_append] at hrun
  rw [parseSuffix_behind hc (by omega),hrun]
  rfl

/-! ## The calls -/

variable {str : List UInt8} {l : List (List UInt8)}

/-- The texts that the function looks at: they are short and of the right characters. -/
def Plain (str : List UInt8) : Prop := 2 ≤ str.length ∧ str.length ≤ 39 ∧ ∀ c ∈ str, isHex c = true ∨ c = colon

theorem Plain.passes (h : Plain str) : ¬(str.length < 2 ∨ str.length > 39 ∨ (0 : UInt8) ≠ 0) := by
  rintro (hlt | hgt | hne)
  · exact absurd h.1 (Nat.not_le.mpr hlt)
  · exact absurd h.2.1 (Nat.not_le.mpr hgt)
  · exact hne rfl

theorem run_early (h0 : (0 : UInt8) ∉ str) (hstr : ¬Plain str) : strParseIp6a ap suffix (str ++ 0 :: more) = some (-1,ap) := by
  obtain ⟨u,c,t,heq,hu,hc,hbad⟩ : ∃ u c t, str ++ 0 :: more = u ++ c :: t ∧ (∀ c ∈ u, isHex c = true ∨ c = colon) ∧
      ¬(isHex c = true ∨ c = colon) ∧ (u.length < 2 ∨ u.length > 39 ∨ c ≠ 0) := by
    by_cases hall : ∀ c ∈ str, isHex c = true ∨ c = colon
    · refine ⟨str,0,more,rfl,hall,by decide,?_⟩
      by_contra hlen
      push Not at hlen
      exact hstr ⟨hlen.1,hlen.2.1,hall⟩
    · obtain ⟨u,v,hsplit,hu,hv⟩ : ∃ u v, str = u ++ v ∧ (∀ c ∈ u, isHex c = true ∨ c = colon) ∧
          ∀ c ∈ v.head?, ¬(isHex c = true ∨ c = colon) := by
        refine ⟨str.takeWhile fun c => isHex c || c == colon,str.dropWhile fun c => isHex c || c == colon,
          List.takeWhile_append_dropWhile.symm,
          fun c hc => by simpa using List.mem_takeWhile_imp hc,fun c hc => ?_⟩
        have := List.head?_dropWhile_not (fun c => isHex c || c == colon) str
        rw [hc] at this
        simpa using this
      cases v with
      | nil => exact absurd (hsplit ▸ (List.append_nil u).symm ▸ hu) hall
      | cons c v =>
        subst str
        refine ⟨u,c,v ++ 0 :: more,by simp,hu,hv c rfl,.inr (.inr fun h => h0 (by simp [h]))⟩
  have hspn : strSpn (str ++ 0 :: more) ip6aSet = some u.length := by
    rw [heq]
    refine spanLen_append (fun c h => (ip6aSet_contains c).mpr (hu c h)) (csetContains_false ?_ fun h => hc ((ip6aSet_contains c).mp h))
    exact (csetAdd_length _ _).trans (csetInitAccept_spec hexChars).1
  have hread : (str ++ 0 :: more)[u.length]? = some c := by
    rw [heq,List.getElem?_append_right le_rfl,Nat.sub_self]
    rfl
  rw [strParseIp6a,hspn,Option.bind_eq_bind,Option.bind_some,hread,Option.bind_eq_bind,Option.bind_some,if_pos hbad]
  rfl

theorem spn_plain (hstr : Plain str) : strSpn (str ++ 0 :: more) ip6aSet = some str.length := by
  refine spanLen_append (fun c h => (ip6aSet_contains c).mpr (hstr.2.2 c h)) (csetContains_false ?_ fun h => ?_)
  · exact (csetAdd_length _ _).trans (csetInitAccept_spec hexChars).1
  · exact absurd ((ip6aSet_contains 0).mp h) (by decide)

theorem run_single (hstr : Plain (colon :: c :: p)) (hc : c ≠ colon) :
    strParseIp6a ap suffix (colon :: c :: p ++ 0 :: more) = some (-1,ap) := by
  have hend : (colon :: c :: p ++ 0 :: more)[(colon :: c :: p).length]? = some 0 := by
    rw [List.getElem?_append_right le_rfl,Nat.sub_self]
    rfl
  rw [strParseIp6a,spn_plain hstr,Option.bind_eq_bind,Option.bind_some,hend,Option.bind_eq_bind,Option.bind_some,if_neg hstr.passes]
  simp [hc]

theorem run_plain (hstr : Plain str) (hfirst : str[0]? = some colon → str[1]? = some colon) (hap : 16 ≤ ap.length) :
    strParseIp6a ap suffix (str ++ 0 :: more) =
      (groupLoop false 0 (str ++ 0 :: more) (str ++ 0 :: more).length 0 0 (List.replicate 16 0 ++ ap.drop 16)).bind
        (afterPrefix suffix (str ++ 0 :: more)) := by
  have hend : (str ++ 0 :: more)[str.length]? = some 0 := by
    rw [List.getElem?_append_right le_rfl,Nat.sub_self]
    rfl
  have hlen := hstr.1
  have hread : ∀ i < 2, (str ++ 0 :: more)[i]? = some (str[i]?.getD 0) := by
    intro i hi
    rw [List.getElem?_append_left (by omega),List.getElem?_eq_getElem (by omega)]
    rfl
  rw [strParseIp6a,spn_plain hstr,Option.bind_eq_bind,Option.bind_some,hend,Option.bind_eq_bind,Option.bind_some,if_neg hstr.passes]
  have hno : ¬(str[0]?.getD 0 = colon ∧ str[1]?.getD 0 ≠ colon) := by
    rw [List.getElem?_eq_getElem (by omega),List.getElem?_eq_getElem (by omega)] at hfirst ⊢
    simpa using hfirst
  rw [hread 0 (by omega),hread 1 (by omega),Option.bind_eq_bind,Option.bind_some,Option.bind_eq_bind,Option.bind_some,if_neg hno,
    memset,if_pos hap]
  rfl

theorem Plain.pieces_hex (hstr : Plain str) : ∀ g ∈ str.splitOn colon, ∀ c ∈ g, isHex c = true := by
  intro g hg c hc
  obtain ⟨hsep,hmem⟩ := piece_spec hg
  exact (hstr.2.2 c (hmem c hc)).resolve_right fun h => hsep (h ▸ hc)

theorem src_pieces (str more : List UInt8) : (str ++ 0 :: more).drop 0 = joined colon (str.splitOn colon) ++ 0 :: more := by
  rw [joined_splitOn,List.drop_zero]

theorem fillable_zeros (outer : List UInt8) : Fillable false 0 (List.replicate 16 0 ++ outer) := by
  refine ⟨by simp,.inr fun x hx => ?_⟩
  rw [Nat.sub_zero,List.take_left' List.length_replicate] at hx
  exact (List.mem_replicate.mp hx).2

theorem front_of_colon (hF : Fronts (str.splitOn colon) front rest) (h : str[0]? = some colon) : front = [] := by
  cases str with
  | nil => cases h
  | cons c str =>
    obtain rfl : c = colon := Option.some_inj.mp h
    rw [List.splitOn_cons_eq_if_modifyHead,if_pos (beq_self_eq_true colon)] at hF
    exact (hF.unique (.empty _)).1

theorem run_front (hstr : Plain str) (hF : Fronts (str.splitOn colon) front rest) (hfirst : str[0]? = some colon → str[1]? = some colon)
    (hap : 16 ≤ ap.length) (hgood : ∀ g ∈ front, g.length ≤ 4) (hroom : front.length ≤ 8) :
    strParseIp6a ap suffix (str ++ 0 :: more) = parseSuffix suffix (str ++ 0 :: more)
      (front.flatMap groupBytes ++ List.replicate (16 - 2 * front.length) 0 ++ ap.drop 16)
      (str.length - (joined colon rest).length) (2 * front.length) := by
  have hrun : groupLoop false 0 (str ++ 0 :: more) (str ++ 0 :: more).length 0 0 ([] ++ (List.replicate 16 0 ++ ap.drop 16)) = _ :=
    groupLoop_good (src_pieces str more) (List.splitOn_ne_nil colon str) hstr.pieces_hex hF (fuel_enough (src_pieces str more) hF) hgood
      (by omega) rfl (fillable_zeros _)
  rw [List.nil_append] at hrun
  rw [run_plain hstr hfirst hap,hrun,joined_splitOn,Option.bind_some,afterPrefix,Nat.zero_add,Nat.zero_add,List.nil_append,
    List.drop_append_of_le_length (by rw [List.length_replicate]; omega),List.drop_replicate,List.append_assoc]

theorem run_front_fails (hstr : Plain str) (hF : Fronts (str.splitOn colon) front rest) (hap : 16 ≤ ap.length)
    (hbad : (∃ g ∈ front, 4 < g.length) ∨ 8 < front.length) :
    ∃ cells, strParseIp6a ap suffix (str ++ 0 :: more) = some (-1,cells ++ ap.drop 16) ∧ cells.length = 16 := by
  obtain ⟨cells,hrun,hlen,hdrop⟩ : ∃ cells, groupLoop false 0 (str ++ 0 :: more) (str ++ 0 :: more).length 0 0
      ([] ++ (List.replicate 16 0 ++ ap.drop 16)) = some (.error cells) ∧ _ ∧ _ :=
    groupLoop_fails (src_pieces str more) hstr.pieces_hex hF (fuel_enough (src_pieces str more) hF)
      (hbad.imp_right fun h => by omega) (Nat.zero_le _) ⟨0,rfl⟩ rfl (fillable_zeros _)
  have hne : front ≠ [] := by
    rintro rfl
    obtain ⟨g,hg,-⟩ | h := hbad
    · exact absurd hg List.not_mem_nil
    · exact absurd h (by simp)
  rw [List.nil_append] at hrun hlen hdrop
  rw [List.drop_left' List.length_replicate] at hdrop
  refine ⟨cells.take 16,?_,?_⟩
  · rw [run_plain hstr (fun h => absurd (front_of_colon hF h) hne) hap,hrun,← hdrop,List.take_append_drop]
    rfl
  · rw [List.length_take,hlen]
    simp

/-- The text of an address with a gap behind the groups `as`, and what the first loop leaves. -/
structure Gap (str : List UInt8) (as l : List (List UInt8)) : Prop where
  plain : Plain str
  cut : str.splitOn colon = padded as ++ [] :: l
  full : [] ∉ as
  ne : l ≠ []

namespace Gap

theorem text (h : Gap str as l) : str = joined colon as ++ colon :: colon :: joined colon l := by
  rw [← joined_splitOn colon str,h.cut,joined_gap h.ne]

theorem fronts (h : Gap str as l) : Fronts (str.splitOn colon) as (if as = [] then [] :: [] :: l else [] :: l) := by
  rw [h.cut]
  exact .padded h.full l

theorem stops (h : Gap str as l) (more : List UInt8) :
    let i := str.length - (joined colon (if as = [] then [] :: [] :: l else [] :: l)).length
    (str ++ 0 :: more)[i]? = some colon ∧ behind i = (joined colon as).length + 2 := by
  have htext := h.text
  have hlen : str.length = (joined colon as).length + 2 + (joined colon l).length := by
    rw [htext,List.length_append,List.length_cons,List.length_cons]
    omega
  split
  · subst as
    rw [joined_nil,List.nil_append] at htext
    rw [joined_cons (List.cons_ne_nil _ _),joined_cons h.ne,htext]
    simp [behind]
  · have hi : str.length - (joined colon ([] :: l)).length = (joined colon as).length + 1 := by
      rw [joined_cons h.ne,List.nil_append,List.length_cons,hlen]
      omega
    rw [hi]
    refine ⟨?_,by rw [behind,if_neg (Nat.succ_ne_zero _)]⟩
    rw [htext,List.append_assoc,List.getElem?_append_right (by omega),Nat.add_sub_cancel_left]
    rfl

theorem first (h : Gap str as l) : str[0]? = some colon → str[1]? = some colon := by
  intro h0
  have htext := h.text
  rw [front_of_colon h.fronts h0,joined_nil,List.nil_append] at htext
  rw [htext]
  rfl

theorem src_behind (h : Gap str as l) (more : List UInt8) :
    (str ++ 0 :: more).drop ((joined colon as).length + 2) = joined colon l ++ 0 :: more := by
  rw [h.text,← List.drop_drop,List.append_assoc,List.drop_left]
  rfl

theorem pieces_hex (h : Gap str as l) : ∀ g ∈ l, ∀ c ∈ g, isHex c = true := by
  intro g hg
  exact h.plain.pieces_hex g (by rw [h.cut]; exact List.mem_append_right _ (List.mem_cons_of_mem _ hg))

theorem run (h : Gap str as l) (hF : Fronts l bs rest) (has : ∀ g ∈ as, g.length ≤ 4) (hbs : ∀ g ∈ bs, g.length ≤ 4)
    (hroom : as.length + bs.length < 8) (hap : 16 ≤ ap.length) (hsuf : suffix.length = 16) :
    strParseIp6a ap suffix (str ++ 0 :: more) = some (((str.length - (joined colon rest).length : ℕ) : ℤ),
      as.flatMap groupBytes ++ List.replicate (16 - 2 * (as.length + bs.length)) 0 ++ bs.flatMap groupBytes ++ ap.drop 16) := by
  obtain ⟨hc,hbehind⟩ := h.stops more
  have hlen := length_flatMap_groupBytes as
  have htext := congrArg List.length h.text
  rw [List.length_append,List.length_cons,List.length_cons] at htext
  have hrest : (joined colon rest).length ≤ (joined colon l).length := hF.joined_le
  rw [run_front h.plain h.fronts h.first hap has (by omega),← hlen,
    parseSuffix_groups hc (hbehind ▸ h.src_behind more) h.ne h.pieces_hex hF hbs (by omega) hsuf]
  · rw [hbehind,hlen,Nat.mul_add]
    congr 4
    omega
  · rw [hbehind]
    have := h.plain.2.1
    exact ⟨by omega,by omega⟩

theorem run_fails (h : Gap str as l) (hF : Fronts l bs rest) (has : ∀ g ∈ as, g.length ≤ 4) (hroom : as.length < 8)
    (hbad : (∃ g ∈ bs, 4 < g.length) ∨ 7 < as.length + bs.length) (hap : 16 ≤ ap.length) (hsuf : suffix.length = 16) :
    ∃ cells, strParseIp6a ap suffix (str ++ 0 :: more) = some (-1,cells ++ ap.drop 16) ∧ cells.length = 16 := by
  obtain ⟨hc,hbehind⟩ := h.stops more
  refine ⟨as.flatMap groupBytes ++ List.replicate (16 - 2 * as.length) 0,?_,?_⟩
  · rw [run_front h.plain h.fronts h.first hap has (by omega),
      parseSuffix_fails hc (hbehind ▸ h.src_behind more) h.pieces_hex hF (hbad.imp_right fun h => by omega) (by omega) ⟨_,rfl⟩ hsuf]
  · rw [List.length_append,List.length_replicate,length_flatMap_groupBytes]
    omega

theorem run_full (h : Gap str as l) (has : ∀ g ∈ as, g.length ≤ 4) (hroom : as.length = 8) (hap : 16 ≤ ap.length) :
    ∃ cells, strParseIp6a ap suffix (str ++ 0 :: more) = some (-1,cells ++ ap.drop 16) ∧ cells.length = 16 := by
  refine ⟨as.flatMap groupBytes ++ List.replicate (16 - 2 * as.length) 0,?_,?_⟩
  · rw [run_front h.plain h.fronts h.first hap has hroom.le,hroom,parseSuffix_full (h.stops more).1]
  · rw [List.length_append,List.length_replicate,length_flatMap_groupBytes,hroom]

end Gap

theorem run_front_end (hstr : Plain str) (hF : Fronts (str.splitOn colon) front rest) (hrest : rest = [] ∨ rest = [[]])
    (hgood : ∀ g ∈ front, g.length ≤ 4) (hroom : front.length ≤ 8) (hap : 16 ≤ ap.length) :
    strParseIp6a ap suffix (str ++ 0 :: more) =
      some ((str.length : ℤ),front.flatMap groupBytes ++ List.replicate (16 - 2 * front.length) 0 ++ ap.drop 16) := by
  have hplace : str.length - (joined colon rest).length = str.length := by
    obtain rfl | rfl := hrest <;> rfl
  have hfirst : str[0]? = some colon → str[1]? = some colon := by
    intro h0
    obtain rfl := front_of_colon hF h0
    have hnil : str = joined colon rest := (joined_splitOn colon str).symm.trans (congrArg (joined colon) hF.eq)
    have htwo := hstr.1
    obtain rfl | rfl := hrest <;> simp [hnil] at htwo
  rw [run_front hstr hF hfirst hap hgood hroom,hplace]
  exact parseSuffix_end (List.drop_left ..) ⟨hstr.1,hstr.2.1⟩

/-! ## Addresses and other texts -/

/-- Texts that are no addresses and pass for some: fewer than eight groups, groups that all have a colon
behind them, or a gap behind which a group and the end or any colon follow a colon. -/
inductive Slips : List UInt8 → Prop
  | few {gs : List (List UInt8)} : (∀ g ∈ gs, IsGroup g) → gs.length < 8 → Slips (joined colon gs)
  | trailing {gs : List (List UInt8)} : (∀ g ∈ gs, IsGroup g) → gs ≠ [] → gs.length ≤ 8 → Slips (joined colon gs ++ [colon])
  | second {as bs : List (List UInt8)} {rest : List UInt8} :
      (∀ g ∈ as ++ bs, IsGroup g) → as.length + bs.length < 8 → (rest = [] ∧ bs ≠ [] ∨ rest.head? = some colon) →
    Slips (joined colon as ++ colon :: colon :: (bs.flatMap (· ++ [colon]) ++ rest))

theorem IsGroup.no_colon (hg : IsGroup g) : colon ∉ g := fun h => (isHex_ne (hg.2.2 colon h)).1 rfl

theorem groups_full (h : ∀ g ∈ gs, IsGroup g) : [] ∉ gs := fun hm => (h [] hm).1 rfl

theorem joined_length (h : ∀ g ∈ gs, IsGroup g) : 2 * gs.length ≤ (joined colon gs).length + 1 ∧
    (joined colon gs).length + (if gs = [] then 0 else 1) ≤ 5 * gs.length := by
  induction gs with
  | nil => simp
  | cons g gs ih =>
    rw [List.forall_mem_cons] at h
    have hg : 0 < g.length := List.length_pos_iff.mpr h.1.1
    have hg4 := h.1.2.1
    obtain ⟨h1,h2⟩ := ih h.2
    obtain rfl | hne := eq_or_ne gs []
    · simp
      omega
    · rw [joined_cons hne,List.length_append,List.length_cons,List.length_cons,if_neg (List.cons_ne_nil _ _)]
      rw [if_neg hne] at h2
      omega

theorem joined_chars (h : ∀ g ∈ gs, IsGroup g) : ∀ c ∈ joined colon gs, isHex c = true ∨ c = colon := by
  induction gs with
  | nil => exact nofun
  | cons g gs ih =>
    rw [List.forall_mem_cons] at h
    obtain rfl | hne := eq_or_ne gs []
    · rw [joined_singleton]
      exact fun c hc => .inl (h.1.2.2 c hc)
    · rw [joined_cons hne]
      intro c hc
      rw [List.mem_append,List.mem_cons] at hc
      exact hc.elim (fun hc => .inl (h.1.2.2 c hc)) fun hc => hc.elim .inr (ih h.2 c)

theorem IsIp6.plain (h : IsIp6 str addr) : Plain str := by
  cases h with
  | full hgs hlen =>
    obtain ⟨h1,h2⟩ := joined_length hgs
    rw [if_neg (List.ne_nil_of_length_pos (by omega))] at h2
    exact ⟨by omega,by omega,joined_chars hgs⟩
  | short hgs hlen =>
    rw [List.forall_mem_append] at hgs
    obtain ⟨-,ha⟩ := joined_length hgs.1
    obtain ⟨-,hb⟩ := joined_length hgs.2
    refine ⟨by simp; omega,by simp; omega,fun c hc => ?_⟩
    simp only [List.mem_append, List.mem_cons] at hc
    obtain hc | rfl | rfl | hc := hc
    · exact joined_chars hgs.1 c hc
    · exact .inr rfl
    · exact .inr rfl
    · exact joined_chars hgs.2 c hc

theorem gap_of (hplain : Plain (joined colon as ++ colon :: colon :: p)) (has : ∀ g ∈ as, IsGroup g) :
    Gap (joined colon as ++ colon :: colon :: p) as (p.splitOn colon) where
  plain := hplain
  cut := by
    rw [List.splitOn_append_cons_self,splitOn_padded fun g hg => (has g hg).no_colon,List.splitOn_cons_eq_if_modifyHead,
      if_pos (beq_self_eq_true colon)]
  full := groups_full has
  ne := List.splitOn_ne_nil colon p

theorem fronts_padded (h : ∀ g ∈ gs, IsGroup g) : Fronts ((joined colon gs).splitOn colon) gs (if gs = [] then [[]] else []) := by
  rw [splitOn_padded fun g hg => (h g hg).no_colon,padded]
  split
  · subst gs
    exact .empty []
  · exact .all (groups_full h)

theorem IsIp6.cut (h : IsIp6 str addr) :
    (∃ gs, Fronts (str.splitOn colon) gs [] ∧ (∀ g ∈ gs, IsGroup g) ∧ gs.length = 8 ∧ addr = gs.flatMap groupBytes) ∨
    ∃ as bs l, Gap str as l ∧ Fronts l bs (if bs = [] then [[]] else []) ∧ (∀ g ∈ as ++ bs, IsGroup g) ∧ as.length + bs.length < 8 ∧
      addr = as.flatMap groupBytes ++ List.replicate (16 - 2 * (as.length + bs.length)) 0 ++ bs.flatMap groupBytes := by
  have hplain := h.plain
  cases h with
  | @full gs hgs hlen =>
    refine .inl ⟨gs,?_,hgs,hlen,rfl⟩
    have h := fronts_padded hgs
    rwa [if_neg (List.ne_nil_of_length_pos (by omega))] at h
  | @short as bs hgs hlen =>
    have hboth := List.forall_mem_append.mp hgs
    exact .inr ⟨as,bs,_,gap_of hplain hboth.1,fronts_padded hboth.2,hgs,hlen,rfl⟩

theorem IsIp6.run (h : IsIp6 str addr) (hap : 16 ≤ ap.length) (hsuf : suffix.length = 16) :
    strParseIp6a ap suffix (str ++ 0 :: more) = some ((str.length : ℤ),addr ++ ap.drop 16) ∧ addr.length = 16 := by
  obtain ⟨gs,hF,hgs,hlen,rfl⟩ | ⟨as,bs,l,hgap,hF,hgs,hlen,rfl⟩ := h.cut
  · rw [run_front_end h.plain hF (.inl rfl) (fun g hg => (hgs g hg).2.1) hlen.le hap,length_flatMap_groupBytes,hlen]
    simp
  · rw [List.forall_mem_append] at hgs
    rw [hgap.run hF (fun g hg => (hgs.1 g hg).2.1) (fun g hg => (hgs.2 g hg).2.1) hlen hap hsuf]
    constructor
    · split <;> rfl
    · simp only [List.length_append, List.length_replicate, length_flatMap_groupBytes]
      omega

theorem Slips.cut (h : Slips str) (hplain : Plain str) :
    (∃ gs rest, Fronts (str.splitOn colon) gs rest ∧ (∀ g ∈ gs, IsGroup g) ∧ gs.length ≤ 8 ∧ (rest = [] ∧ gs.length < 8 ∨ rest = [[]])) ∨
    ∃ as bs l rest, Gap str as l ∧ Fronts l bs rest ∧ (∀ g ∈ as ++ bs, IsGroup g) ∧ as.length + bs.length < 8 ∧
      rest ≠ [] ∧ (rest = [[]] → bs ≠ []) := by
  cases h with
  | @few gs hgs hlen =>
    have hne : gs ≠ [] := by
      rintro rfl
      exact absurd hplain.1 (by simp)
    have h := fronts_padded hgs
    rw [if_neg hne] at h
    exact .inl ⟨gs,[],h,hgs,hlen.le,.inl ⟨rfl,hlen⟩⟩
  | @trailing gs hgs hne hlen =>
    refine .inl ⟨gs,[[]],?_,hgs,hlen,.inr rfl⟩
    rw [List.splitOn_append_cons_self,splitOn_joined (fun g hg => (hgs g hg).no_colon) hne]
    exact .append (groups_full hgs) []
  | @second as bs rest hgs hlen hrest =>
    have hboth := List.forall_mem_append.mp hgs
    have hbs : ∀ g ∈ bs, colon ∉ g := fun g hg => (hboth.2 g hg).no_colon
    have hstop : ∃ t, rest.splitOn colon = [] :: t := by
      obtain ⟨rfl,-⟩ | h := hrest
      · exact ⟨_,rfl⟩
      · obtain ⟨t,rfl⟩ := List.head?_eq_some_iff.mp h
        exact ⟨_,by rw [List.splitOn_cons_eq_if_modifyHead,if_pos (beq_self_eq_true colon)]⟩
    obtain ⟨t,ht⟩ := hstop
    refine .inr ⟨as,bs,_,rest.splitOn colon,gap_of hplain hboth.1,?_,hgs,hlen,List.splitOn_ne_nil colon rest,fun h => ?_⟩
    · rw [splitOn_ended hbs,ht]
      exact .append (groups_full hboth.2) t
    · have hnil : rest = [] := by rw [← joined_splitOn colon rest,h]; rfl
      exact (hrest.resolve_right (by simp [hnil])).2

theorem Slips.run (h : Slips str) (hplain : Plain str) (hap : 16 ≤ ap.length) (hsuf : suffix.length = 16) :
    ∃ (n : ℕ) (cells : List UInt8), strParseIp6a ap suffix (str ++ 0 :: more) = some ((n : ℤ),cells ++ ap.drop 16) ∧ cells.length = 16 := by
  obtain ⟨gs,rest,hF,hgs,hlen,hrest⟩ | ⟨as,bs,l,rest,hgap,hF,hgs,hlen,-⟩ := h.cut hplain
  · refine ⟨_,_,run_front_end hplain hF (hrest.imp_left fun h => h.1) (fun g hg => (hgs g hg).2.1) hlen hap,?_⟩
    rw [List.length_append,List.length_replicate,length_flatMap_groupBytes]
    omega
  · rw [List.forall_mem_append] at hgs
    refine ⟨_,_,hgap.run hF (fun g hg => (hgs.1 g hg).2.1) (fun g hg => (hgs.2 g hg).2.1) hlen hap hsuf,?_⟩
    simp only [List.length_append, List.length_replicate, length_flatMap_groupBytes]
    omega

theorem Slips.not_ip6 (h : Slips str) : ¬IsIp6 str addr := by
  intro hip
  obtain ⟨gs,rest,hF,-,-,hrest⟩ | ⟨as,bs,l,rest,hgap,hF,-,-,hne,hbs⟩ := h.cut hip.plain <;>
    obtain ⟨gs',hF',-,hlen,-⟩ | ⟨as',bs',l',hgap',hF',-⟩ := hip.cut
  · obtain ⟨rfl,rfl⟩ := hF.unique hF'
    simp [hlen] at hrest
  · have hstop := (hF.unique hgap'.fronts).2
    obtain ⟨rfl,-⟩ | rfl := hrest <;> split at hstop <;> simp [hgap'.ne.symm] at hstop
  · have hstop := (hF'.unique hgap.fronts).2
    split at hstop <;> cases hstop
  · obtain ⟨rfl,rfl⟩ := padded_unique (hgap.cut.symm.trans hgap'.cut) hgap.full hgap'.full
    obtain ⟨rfl,rfl⟩ := hF.unique hF'
    split at hbs
    · exact hbs rfl ‹_›
    · exact hne (if_neg ‹_›)

theorem groups_of (hF : Fronts ps front rest) (hhex : ∀ g ∈ ps, ∀ c ∈ g, isHex c = true) (hgood : ∀ g ∈ front, g.length ≤ 4) :
    ∀ g ∈ front, IsGroup g := fun g hg =>
  ⟨fun h => hF.full (h ▸ hg),hgood g hg,hhex g (hF.eq ▸ List.mem_append_left _ hg)⟩

theorem Gap.returns (h : Gap str as l) (has : ∀ g ∈ as, IsGroup g) (hroom : as.length ≤ 8) (hap : 16 ≤ ap.length)
    (hsuf : suffix.length = 16) :
    (∃ addr, IsIp6 str addr) ∨ Slips str ∨
      ∃ cells, strParseIp6a ap suffix (str ++ 0 :: more) = some (-1,cells ++ ap.drop 16) ∧ cells.length = 16 := by
  have has4 : ∀ g ∈ as, g.length ≤ 4 := fun g hg => (has g hg).2.1
  obtain h8 | hlt := hroom.eq_or_lt
  · exact .inr (.inr (h.run_full has4 h8 hap))
  obtain ⟨bs,rest,hF⟩ := exists_fronts l
  by_cases hbad : (∃ g ∈ bs, 4 < g.length) ∨ 7 < as.length + bs.length
  · exact .inr (.inr (h.run_fails hF has4 hlt hbad hap hsuf))
  push Not at hbad
  have hbs := groups_of hF h.pieces_hex hbad.1
  have hboth : ∀ g ∈ as ++ bs, IsGroup g := List.forall_mem_append.mpr ⟨has,hbs⟩
  have hlen : as.length + bs.length < 8 := Nat.lt_succ_of_le hbad.2
  have htext := h.text
  obtain rfl | ⟨t,rfl⟩ := hF.rest_cases
  · rw [hF.eq,List.append_nil] at htext
    exact .inl (htext ▸ ⟨_,IsIp6.short hboth hlen⟩)
  rw [hF.eq,joined_ended (List.cons_ne_nil _ _)] at htext
  obtain rfl | hne := eq_or_ne t []
  · obtain rfl | hb := eq_or_ne bs []
    · have htext : str = joined colon as ++ colon :: colon :: joined colon [] := htext
      exact .inl (htext ▸ ⟨_,IsIp6.short hboth hlen⟩)
    · exact .inr (.inl (htext ▸ .second hboth hlen (.inl ⟨rfl,hb⟩)))
  · refine .inr (.inl (htext ▸ .second hboth hlen (.inr ?_)))
    rw [joined_cons hne]
    rfl

theorem strParseIp6a_returns (hplain : Plain str) (hap : 16 ≤ ap.length) (hsuf : suffix.length = 16) :
    (∃ addr, IsIp6 str addr) ∨ Slips str ∨
      ∃ cells, strParseIp6a ap suffix (str ++ 0 :: more) = some (-1,cells ++ ap.drop 16) ∧ cells.length = 16 := by
  obtain ⟨front,rest,hF⟩ := exists_fronts (str.splitOn colon)
  by_cases hbad : (∃ g ∈ front, 4 < g.length) ∨ 8 < front.length
  · exact .inr (.inr (run_front_fails hplain hF hap hbad))
  push Not at hbad
  have hgroups := groups_of hF hplain.pieces_hex hbad.1
  have htext : str = joined colon (front ++ rest) := by rw [← hF.eq,joined_splitOn]
  obtain rfl | ⟨t,rfl⟩ := hF.rest_cases
  · rw [List.append_nil] at htext
    obtain h8 | hlt := hbad.2.eq_or_lt
    · exact .inl (htext ▸ ⟨_,IsIp6.full hgroups h8⟩)
    · exact .inr (.inl (htext ▸ .few hgroups hlt))
  obtain rfl | hfront := eq_or_ne front []
  · match t with
    | [] => exact absurd hplain.1 (by rw [htext]; simp)
    | [[]] => exact absurd hplain.1 (by rw [htext]; simp [joined])
    | [] :: g :: t =>
      have hgap : Gap str [] (g :: t) := ⟨hplain,hF.eq,List.not_mem_nil,List.cons_ne_nil _ _⟩
      exact hgap.returns hgroups hbad.2 hap hsuf
    | (c :: g) :: t =>
      obtain ⟨p,hp⟩ : ∃ p, str = colon :: c :: p := by
        obtain rfl | hne := eq_or_ne t []
        · exact ⟨g,by rw [htext,List.nil_append,joined_cons (List.cons_ne_nil _ _),joined_singleton]; rfl⟩
        · exact ⟨g ++ colon :: joined colon t,by rw [htext,List.nil_append,joined_cons (List.cons_ne_nil _ _),joined_cons hne]; rfl⟩
      have hc : isHex c = true := hplain.pieces_hex (c :: g) (by rw [hF.eq]; simp) c List.mem_cons_self
      refine .inr (.inr ⟨ap.take 16,?_,by rw [List.length_take]; omega⟩)
      rw [List.take_append_drop]
      rw [hp] at hplain ⊢
      exact run_single hplain (isHex_ne hc).1
  · obtain rfl | hne := eq_or_ne t []
    · rw [joined_append hfront (List.cons_ne_nil _ _)] at htext
      exact .inr (.inl (htext ▸ .trailing hgroups hfront hbad.2))
    · have hgap : Gap str front t := ⟨hplain,by rw [hF.eq,padded,if_neg hfront],hF.full,hne⟩
      exact hgap.returns hgroups hbad.2 hap hsuf

/-- The call reads a text right: it gives the length and the address of an address, and -1 for any other
text, and it does not fail an assertion and writes sixteen bytes at most. -/
def ParsesRight (str : List UInt8) : Prop := ∀ ap suffix more : List UInt8, 16 ≤ ap.length → suffix.length = 16 →
  ∃ r cells, strParseIp6a ap suffix (str ++ 0 :: more) = some (r,cells ++ ap.drop 16) ∧ cells.length = 16 ∧
    (∀ addr, IsIp6 str addr → r = str.length ∧ cells = addr) ∧ ((¬∃ addr, IsIp6 str addr) → r = -1)

/-- No call fails, and the wrong ones are those that take another text for an address. -/
theorem strParseIp6a_iff (str : List UInt8) (h0 : (0 : UInt8) ∉ str) :
    (∀ ap suffix more : List UInt8, 16 ≤ ap.length → suffix.length = 16 →
      ∃ r cells, strParseIp6a ap suffix (str ++ 0 :: more) = some (r,cells ++ ap.drop 16) ∧ cells.length = 16) ∧
    (ParsesRight str ↔ ¬(Plain str ∧ Slips str)) := by
  have key : ∀ ap suffix more : List UInt8, 16 ≤ ap.length → suffix.length = 16 → (∃ addr, IsIp6 str addr) ∨ (Plain str ∧ Slips str) ∨
      ∃ cells, strParseIp6a ap suffix (str ++ 0 :: more) = some (-1,cells ++ ap.drop 16) ∧ cells.length = 16 := by
    intro ap suffix more hap hsuf
    by_cases hplain : Plain str
    · exact (strParseIp6a_returns hplain hap hsuf).imp_right fun h => h.imp_left fun h => ⟨hplain,h⟩
    · refine .inr (.inr ⟨ap.take 16,?_,by rw [List.length_take]; omega⟩)
      rw [List.take_append_drop]
      exact run_early h0 hplain
  refine ⟨fun ap suffix more hap hsuf => ?_,fun hright hslip => ?_,fun hslip ap suffix more hap hsuf => ?_⟩
  · obtain ⟨addr,hip⟩ | ⟨hplain,hslip⟩ | ⟨cells,hrun,hlen⟩ := key ap suffix more hap hsuf
    · exact ⟨_,_,hip.run hap hsuf⟩
    · obtain ⟨n,cells,h⟩ := hslip.run hplain hap hsuf
      exact ⟨_,cells,h⟩
    · exact ⟨_,cells,hrun,hlen⟩
  · obtain ⟨hplain,hslip⟩ := hslip
    have hzeros : (List.replicate 16 (0 : UInt8)).length = 16 := List.length_replicate
    obtain ⟨r,cells,hrun,-,-,hno⟩ := hright _ _ [] hzeros.ge hzeros
    obtain ⟨n,cells',hrun',-⟩ := hslip.run hplain hzeros.ge hzeros
    have hr := congrArg Prod.fst (Option.some_inj.mp (hrun.symm.trans hrun'))
    rw [hno fun ⟨addr,h⟩ => hslip.not_ip6 h] at hr
    simp at hr
  · obtain ⟨addr,hip⟩ | h | ⟨cells,hrun,hlen⟩ := key ap suffix more hap hsuf
    · obtain ⟨hrun,hlen⟩ := hip.run hap hsuf
      refine ⟨_,_,hrun,hlen,fun addr' hip' => ⟨rfl,?_⟩,fun h => absurd ⟨addr,hip⟩ h⟩
      have h := Option.some_inj.mp (hrun.symm.trans (hip'.run hap hsuf).1)
      exact List.append_cancel_right (congrArg Prod.snd h)
    · exact absurd h hslip
    · refine ⟨_,cells,hrun,hlen,fun addr hip => ?_,fun _ => rfl⟩
      have h := congrArg Prod.fst (Option.some_inj.mp (hrun.symm.trans (hip.run hap hsuf).1))
      simp at h

theorem strParseIp6a_loopback : ParsesRight [58,58,49] := by
  have hgroup : ∀ g ∈ [] ++ [[49]], IsGroup g := by
    intro g hg
    obtain rfl := List.mem_singleton.mp hg
    exact ⟨nofun,by decide,List.all_eq_true.mp (by decide)⟩
  have hip : IsIp6 [58,58,49] _ := .short hgroup (by decide)
  exact (strParseIp6a_iff [58,58,49] (by decide)).2.mpr fun h => h.2.not_ip6 hip

/-- The text "12" is taken for an address. -/
theorem twelve_passes : strParseIp6a (List.replicate 16 0) (List.replicate 16 0) [49,50,0] = some (2,0 :: 18 :: List.replicate 14 0) ∧
    ¬ParsesRight [49,50] := by
  have hrun : strParseIp6a (List.replicate 16 0) (List.replicate 16 0) [49,50,0] = some (2,0 :: 18 :: List.replicate 14 0) := by
    decide +kernel
  refine ⟨hrun,fun h => ?_⟩
  obtain ⟨r,cells,hr,-,-,hno⟩ := h (List.replicate 16 0) (List.replicate 16 0) [] (by simp) (by simp)
  have hgroup : ∀ g ∈ [[49,50]], IsGroup g := by
    intro g hg
    obtain rfl := List.mem_singleton.mp hg
    exact ⟨nofun,by decide,List.all_eq_true.mp (by decide)⟩
  have hslip : Slips [49,50] := .few hgroup (by decide)
  obtain rfl := hno fun ⟨addr,hip⟩ => hslip.not_ip6 hip
  have h : (2 : ℤ) = -1 := congrArg Prod.fst (Option.some_inj.mp (hrun.symm.trans hr))
  exact absurd h (by decide)

end Catlib.Text
