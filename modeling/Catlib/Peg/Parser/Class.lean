import Catlib.Peg.Parser.Literal
import Mathlib.Data.List.Infix
import Mathlib.Data.Nat.Bitwise

/-! # Classes

What a class denotes by the grammar comment of peg.c, and what `parse_class` makes of it. The ends
of a range are compared as ints, in which a raw byte from 128 on is negative and an escape is not.
-/
namespace Catlib.Peg.Parser

open Traced

/-! ## The grammar -/

/-- A range with its ends, or a character as the range from itself to itself. -/
structure ClassItem where
  lo : Item
  hi : Item

/-- `Range` at a text: `Char '-' Char`, else `Char`. -/
def rangeItem (s : List UInt8) : Option (ClassItem × ℕ) :=
  match charItem s with
  | none => none
  | some (a,n) =>
    if s.getD n 0 = 45 then
      match charItem (s.drop (n + 1)) with
      | none => some (⟨a,a⟩,n)
      | some (b,m) => some (⟨a,b⟩,n + 1 + m)
    else some (⟨a,a⟩,n)

/-- `(!']' Range)*` at a text: the ranges, and the text behind them. -/
def classBody (s : List UInt8) : List ClassItem × List UInt8 := items rangeItem 93 s

/-- The bytes from one end to the other. -/
def ClassItem.Denotes (it : ClassItem) (b : UInt8) : Prop := it.lo.2 ≤ b ∧ b ≤ it.hi.2

theorem rangeItem_advances : Advances rangeItem := by
  intro s a n h
  rw [rangeItem] at h
  split at h
  · cases h
  rename_i a' m hm
  have hn := charItem_advances _ _ _ hm
  split at h
  · split at h
    · cases h
      exact hn
    · rename_i b k hk
      have hk' := charItem_advances _ _ _ hk
      cases h
      rw [List.length_drop] at hk'
      omega
  · cases h
    exact hn

/-! ## Sets -/

theorem csetAdd_length (set : List UInt8) (ch : UInt8) : (csetAdd set ch).length = set.length := List.length_modify ..

theorem and_bit (n j : ℕ) : (n &&& 1 <<< j != 0) = n.testBit j := by
  rw [Nat.one_shiftLeft,Nat.and_two_pow]
  cases n.testBit j <;> simp

theorem bit_add (x : UInt8) (i j : Fin 8) :
    ((x ||| 1 <<< UInt8.ofNat i).toNat &&& 1 <<< j.val != 0) = (decide (i = j) || x.toNat &&& 1 <<< j.val != 0) := by
  have hi : UInt8.toNat (1 <<< UInt8.ofNat i) = 2 ^ i.val := by
    revert i
    decide
  rw [and_bit,and_bit,UInt8.toNat_or,hi,Nat.testBit_or,Nat.testBit_two_pow,Bool.or_comm]
  simp only [Fin.ext_iff]

theorem byte_parts (c : UInt8) : c.toNat >>> 3 < 32 ∧ c.toNat &&& 7 < 8 ∧ c &&& 7 = UInt8.ofNat (c.toNat &&& 7) ∧
    c.toNat = 8 * (c.toNat >>> 3) + (c.toNat &&& 7) := by
  have h : ∀ n : Fin 256, (UInt8.ofNat n).toNat >>> 3 < 32 ∧ (UInt8.ofNat n).toNat &&& 7 < 8 ∧
      UInt8.ofNat n &&& 7 = UInt8.ofNat ((UInt8.ofNat n).toNat &&& 7) ∧
      (UInt8.ofNat n).toNat = 8 * ((UInt8.ofNat n).toNat >>> 3) + ((UInt8.ofNat n).toNat &&& 7) := by decide +kernel
  simpa using h ⟨c.toNat,c.toNat_lt⟩

theorem csetContains_add {set : List UInt8} (hs : set.length = 32) (ch b : UInt8) :
    csetContains (csetAdd set ch) b = some true ↔ b = ch ∨ csetContains set b = some true := by
  obtain ⟨hb1,hb2,-,hb3⟩ := byte_parts b
  obtain ⟨-,hc2,hc4,hc3⟩ := byte_parts ch
  obtain ⟨x,hx⟩ : ∃ x, set[b.toNat >>> 3]? = some x := ⟨_,List.getElem?_eq_getElem (by omega)⟩
  have heq : b = ch ↔ ch.toNat >>> 3 = b.toNat >>> 3 ∧ (ch.toNat &&& 7) = (b.toNat &&& 7) := by
    refine ⟨fun h => by rw [h]; exact ⟨rfl,rfl⟩,fun h => UInt8.toNat_inj.1 ?_⟩
    rw [hb3,hc3,h.1,h.2]
  rw [csetContains,csetContains,csetAdd,List.getElem?_modify,hx,heq]
  by_cases hk : ch.toNat >>> 3 = b.toNat >>> 3
  · have hbit := bit_add x ⟨_,hc2⟩ ⟨_,hb2⟩
    simp only [Fin.mk.injEq] at hbit
    rw [← hc4] at hbit
    simp only [Option.map_eq_map, Option.map_some, hk, if_true, hbit, true_and, Option.some.injEq, Bool.or_eq_true,
      decide_eq_true_eq]
  · simp [hk]

/-- The ends of an item as ints. -/
def Item.val (it : Item) : ℤ := if it.1.head? = some 92 then it.2.toNat else charVal it.2

/-- What the loop over a range adds. -/
def ClassItem.Adds (it : ClassItem) (b : UInt8) : Prop := ∃ v, it.lo.val ≤ v ∧ v ≤ it.hi.val ∧ toByte v = b

theorem csetAddRange_spec {set : List UInt8} (hs : set.length = 32) (c1 c2 : ℤ) : (csetAddRange set c1 c2).length = 32 ∧
    ∀ b, csetContains (csetAddRange set c1 c2) b = some true ↔ (∃ v, c1 ≤ v ∧ v ≤ c2 ∧ toByte v = b) ∨ csetContains set b = some true := by
  have key : ∀ n : ℕ, ((List.range n).foldl (fun set (k : ℕ) => csetAdd set (toByte (c1 + k))) set).length = 32 ∧
      ∀ b, csetContains ((List.range n).foldl (fun set (k : ℕ) => csetAdd set (toByte (c1 + k))) set) b = some true ↔
        (∃ k < n, toByte (c1 + k) = b) ∨ csetContains set b = some true := by
    intro n
    induction n with
    | zero => exact ⟨hs,fun b => by simp⟩
    | succ n ih =>
      rw [List.range_succ,List.foldl_append]
      refine ⟨(csetAdd_length _ _).trans ih.1,fun b => ?_⟩
      rw [List.foldl_cons,List.foldl_nil,csetContains_add ih.1,ih.2 b]
      constructor
      · rintro (rfl | ⟨k,hk,hb⟩ | h)
        · exact Or.inl ⟨n,Nat.lt_succ_self n,rfl⟩
        · exact Or.inl ⟨k,by omega,hb⟩
        · exact Or.inr h
      · rintro (⟨k,hk,hb⟩ | h)
        · rcases Nat.lt_succ_iff_lt_or_eq.1 hk with hk | rfl
          · exact Or.inr (Or.inl ⟨k,hk,hb⟩)
          · exact Or.inl hb.symm
        · exact Or.inr (Or.inr h)
  refine ⟨(key _).1,fun b => ((key _).2 b).trans (or_congr_left ⟨?_,?_⟩)⟩
  · rintro ⟨k,hk,hb⟩
    exact ⟨c1 + k,by omega,by omega,hb⟩
  · rintro ⟨v,h1,h2,hb⟩
    exact ⟨(v - c1).toNat,by omega,by rw [show c1 + ((v - c1).toNat : ℤ) = v by omega]; exact hb⟩

def addItem (set : List UInt8) (it : ClassItem) : List UInt8 := csetAddRange set it.lo.val it.hi.val

theorem addItems_spec (l : List ClassItem) {set : List UInt8} (hs : set.length = 32) : (l.foldl addItem set).length = 32 ∧
    ∀ b, csetContains (l.foldl addItem set) b = some true ↔ (∃ it ∈ l, it.Adds b) ∨ csetContains set b = some true := by
  induction l generalizing set with
  | nil => exact ⟨hs,fun b => by simp⟩
  | cons it l ih =>
    obtain ⟨hlen,hmem⟩ := csetAddRange_spec hs it.lo.val it.hi.val
    obtain ⟨h1,h2⟩ := ih (show (addItem set it).length = 32 from hlen)
    refine ⟨h1,fun b => (h2 b).trans ?_⟩
    rw [addItem,hmem b]
    simp only [List.mem_cons, exists_eq_or_imp, ClassItem.Adds]
    exact or_left_comm.trans or_assoc.symm

theorem csetClear_empty (b : UInt8) : csetContains csetClear b ≠ some true := by
  suffices h : ∀ n : Fin 256, csetContains csetClear (UInt8.ofNat n) ≠ some true by
    simpa using h ⟨b.toNat,b.toNat_lt⟩
  decide +kernel

/-! ## What the ends of a range are -/

/-- A raw byte that is negative as a `char`. -/
def Item.High (it : Item) : Prop := it.1.head? ≠ some 92 ∧ 128 ≤ it.2.toNat

/-- Exactly one end is a raw byte from 128 on. -/
def ClassItem.Mixed (it : ClassItem) : Prop := ¬(it.lo.High ↔ it.hi.High)

theorem Item.val_eq (it : Item) : it.High ∧ it.val = it.2.toNat - 256 ∨ ¬it.High ∧ it.val = it.2.toNat := by
  rw [Item.High,Item.val,charVal]
  split
  · rename_i h
    exact Or.inr ⟨fun hh => hh.1 h,rfl⟩
  · rename_i h
    split
    · exact Or.inr ⟨fun hh => by omega,rfl⟩
    · exact Or.inl ⟨⟨h,by omega⟩,rfl⟩

theorem toNat_toByte (v : ℤ) : ((toByte v).toNat : ℤ) = v % 256 := by
  rw [toByte,toNat_ofNat (by omega)]
  omega

theorem ClassItem.adds_iff {it : ClassItem} (h : ¬it.Mixed) (b : UInt8) : it.Adds b ↔ it.Denotes b := by
  rw [Mixed,not_not] at h
  rw [Adds,Denotes,UInt8.le_iff_toNat_le,UInt8.le_iff_toNat_le]
  have hlo := it.lo.2.toNat_lt
  have hhi := it.hi.2.toNat_lt
  have hb := b.toNat_lt
  have hbyte : ∀ v : ℤ, v % 256 = b.toNat → toByte v = b := fun v hv => by
    apply UInt8.toNat_inj.1
    have := toNat_toByte v
    lia
  rcases it.lo.val_eq with ⟨hl,hlv⟩ | ⟨hl,hlv⟩ <;> rcases it.hi.val_eq with ⟨hh,hhv⟩ | ⟨hh,hhv⟩
  · rw [hlv,hhv]
    constructor
    · rintro ⟨v,h1,h2,rfl⟩
      have := toNat_toByte v
      lia
    · rintro ⟨h1,h2⟩
      exact ⟨b.toNat - 256,by lia,by lia,hbyte _ (by lia)⟩
  · exact absurd (h.1 hl) hh
  · exact absurd (h.2 hh) hl
  · rw [hlv,hhv]
    constructor
    · rintro ⟨v,h1,h2,rfl⟩
      have := toNat_toByte v
      lia
    · rintro ⟨h1,h2⟩
      exact ⟨b.toNat,by lia,by lia,hbyte _ (by lia)⟩

/-! ## The loop over the ranges -/

section Loop

variable {input s : List UInt8} {pc : PegCursor}

/-- Nowhere in front of what is left does a carriage return stand in front of a newline. -/
def NoCrLf (s left : List UInt8) : Prop := ∀ u, u <:+ s → left.length < u.length → crLf u = false

theorem item_head {t : List UInt8} {b : UInt8} {n : ℕ} (h : charOf t = some (b,n)) : (t.take n).head? = some 92 ↔ t.headD 0 = 92 := by
  have hn := charOf_le h
  rw [List.head?_take,if_neg (by omega)]
  cases t with
  | nil => cases h
  | cons c u => exact Option.some_inj

theorem valueOf_item {t : List UInt8} {b : UInt8} {n : ℕ} (h : charOf t = some (b,n)) : valueOf t b = Item.val (t.take n,b) :=
  if_congr (item_head h).symm rfl rfl

theorem parseChar_item (hat : At input pc s) {a : Item} {n : ℕ} (h : charItem s = some (a,n)) (hcr : crLf s = false) :
    ∃ line, (parseChar input pc ()).result = .ok (.yes (a.val,⟨pc.pos + n,line⟩),()) := by
  obtain ⟨⟨b,m⟩,hc,hr⟩ := Option.map_eq_some_iff.1 h
  cases hr
  obtain ⟨line,hd⟩ := decode_some hc pc
  refine ⟨line,(parseChar_at hat).trans ?_⟩
  rw [hd,valueOf_item hc,width,hcr]
  rfl

theorem parseChar_none (hat : At input pc s) (h : charItem s = none) : ∃ r, (parseChar input pc ()).result = .ok (r,()) ∧
    ∀ x, r ≠ .yes x := by
  refine ⟨_,parseChar_at hat,?_⟩
  rcases decode_none (charItem_none.1 h) pc with hd | ⟨e,hd⟩ <;> rw [hd] <;> exact fun x hx => nomatch hx

theorem At.item (hat : At input pc s) {a : Item} {n : ℕ} (h : charItem s = some (a,n)) (line : ℕ) :
    At input ⟨pc.pos + n,line⟩ (s.drop n) := hat.step (charItem_advances _ _ _ h).2 rfl

theorem getD_drop (s : List UInt8) (n : ℕ) : (s.drop n).headD 0 = s.getD n 0 := by
  rw [List.headD_eq_head?_getD,List.head?_drop,List.getD_eq_getElem?_getD]

theorem csetAddRange_self (set : List UInt8) (v : ℤ) : csetAddRange set v v = csetAdd set (toByte v) := by
  rw [csetAddRange,show (v + 1 - v).toNat = 1 by omega,List.range_one,List.foldl_cons,List.foldl_nil,Nat.cast_zero,add_zero]

theorem classAddChar_run (hat : At input pc s) (set : List UInt8) {it : ClassItem} {n : ℕ} (h : rangeItem s = some (it,n))
    (hcr : ∀ u, u <:+ s → s.length < u.length + n → crLf u = false) :
    (∃ pc', At input pc' (s.drop n) ∧ (classAddChar input pc set ()).result = .ok (.yes (addItem set it,pc'),())) ∨
    (∃ e, (classAddChar input pc set ()).result = .ok (.fail e,())) ∧ s.getD n 0 = 45 ∧ charItem (s.drop (n + 1)) = none := by
  have hadv := rangeItem_advances _ _ _ h
  rw [rangeItem] at h
  split at h
  · cases h
  rename_i a m hm
  have hm' := charItem_advances _ _ _ hm
  obtain ⟨line,hp⟩ := parseChar_item hat hm (hcr s (List.suffix_refl s) (by omega))
  have hat' := hat.item hm line
  rw [classAddChar,bind_ok hp]
  dsimp only
  rw [bind_ok (rest_at hat'),getD_drop]
  by_cases hdash : s.getD m 0 = 45
  · rw [if_neg (not_not.2 hdash)]
    rw [if_pos hdash] at h
    have hlt : m < s.length := by
      by_contra hle
      rw [List.getD_eq_getElem?_getD,List.getElem?_eq_none (not_lt.1 hle)] at hdash
      cases hdash
    have hat2 : At input (PegCursor.skip ⟨pc.pos + m,line⟩ 1) (s.drop (m + 1)) := hat.step hlt rfl
    split at h
    · rename_i hb
      cases h
      obtain ⟨r,hr,hno⟩ := parseChar_none hat2 hb
      refine Or.inr ⟨?_,hdash,hb⟩
      rw [bind_ok hr]
      rcases r with e | _ | x
      · exact ⟨e,rfl⟩
      · exact ⟨(.badRange,pc),rfl⟩
      · exact absurd rfl (hno x)
    · rename_i b k hb
      cases h
      have hk := charItem_advances _ _ _ hb
      obtain ⟨line',hp'⟩ := parseChar_item hat2 hb (hcr _ (List.drop_suffix _ _) (by rw [List.length_drop] at hk ⊢; omega))
      refine Or.inl ⟨⟨pc.pos + m + 1 + k,line'⟩,hat.step (by omega) (by dsimp only; omega),?_⟩
      rw [bind_ok hp']
      rfl
  · rw [if_pos hdash]
    rw [if_neg hdash] at h
    cases h
    refine Or.inl ⟨⟨pc.pos + n,line⟩,hat',?_⟩
    rw [addItem,csetAddRange_self]
    rfl

theorem classAddChar_none (hat : At input pc s) (set : List UInt8) (h : charItem s = none) :
    ∃ e, (classAddChar input pc set ()).result = .ok (.fail e,()) := by
  obtain ⟨r,hr,hno⟩ := parseChar_none hat h
  rw [classAddChar,bind_ok hr]
  rcases r with e | _ | x
  · exact ⟨e,rfl⟩
  · exact ⟨(.badClass,pc),rfl⟩
  · exact absurd rfl (hno x)

theorem rangeItem_none {s : List UInt8} : rangeItem s = none ↔ charItem s = none := by
  rw [rangeItem]
  split
  · rename_i h
    exact iff_of_true rfl h
  · rename_i h
    refine iff_of_false (fun hh => ?_) (fun hh => by rw [h] at hh; cases hh)
    split at hh
    · split at hh <;> cases hh
    · cases hh

theorem classBody_stop {s : List UInt8} (h : s.head? = some 93 ∨ charItem s = none) : classBody s = ([],s) :=
  items_stop rangeItem_advances (h.imp_right rangeItem_none.2)

theorem classBody_dash {s : List UInt8} {n : ℕ} (hd : s.getD n 0 = 45) (h : charItem (s.drop (n + 1)) = none) :
    (classBody (s.drop n)).2.head? ≠ some 93 := by
  have hnone := charItem_none.1 h
  obtain ⟨t,ht⟩ : ∃ t, s.drop n = 45 :: t := by
    rw [← getD_drop] at hd
    cases hs : s.drop n with
    | nil =>
      rw [hs] at hd
      cases hd
    | cons c t =>
      rw [hs] at hd
      exact ⟨t,by rw [show c = 45 from hd]⟩
  have htail : s.drop (n + 1) = t := by rw [← List.drop_drop,ht]; rfl
  rw [htail] at h hnone
  have hhead : ∀ c, c ≠ 0 → c ≠ 92 → t.headD 0 ≠ c := fun c h0 h92 hc => by
    rw [charOf_raw (by rw [hc]; exact h0) (by rw [hc]; exact h92)] at hnone
    cases hnone
  have hitem : rangeItem (45 :: t) = some (⟨([45],45),([45],45)⟩,1) := by
    rw [rangeItem,charItem_eq (b := 45) (n := 1) rfl]
    dsimp only
    rw [← getD_drop,if_neg (show ¬(List.drop 1 (45 :: t)).headD 0 = 45 from hhead 45 (by decide) (by decide))]
    rfl
  rw [ht,classBody,items_step rangeItem_advances (by simp) hitem]
  show (classBody t).2.head? ≠ some 93
  rw [classBody_stop (Or.inr h)]
  intro hh
  refine hhead 93 (by decide) (by decide) ?_
  rw [List.headD_eq_head?_getD,hh]
  rfl

theorem classSet_run (hat : At input pc s) (hcr : NoCrLf s (classBody s).2) {f : ℕ} (hf : s.length < f) (set : List UInt8) :
    ((classBody s).2.head? = some 93 → ∃ pc', At input pc' (classBody s).2 ∧
      (classSet input f pc set ()).result = .ok (.yes ((classBody s).1.foldl addItem set,pc'),())) ∧
    ((classBody s).2.head? ≠ some 93 → (∃ e, (classSet input f pc set ()).result = .ok (.fail e,())) ∨
      ∃ pc' set' u, At input pc' u ∧ u.headD 0 = 0 ∧ (classSet input f pc set ()).result = .ok (.yes (set',pc'),())) := by
  induction s using items_induction rangeItem (q := 93) generalizing pc f set with
  | stop s h =>
    rw [rangeItem_none] at h
    obtain ⟨f,rfl⟩ := Nat.exists_eq_succ_of_ne_zero (show f ≠ 0 by omega)
    rw [classBody_stop h,classSet,bind_ok (rest_at hat)]
    dsimp only
    by_cases hc : s.headD 0 = 93 ∨ s.headD 0 = 0
    · rw [if_pos hc]
      refine ⟨fun _ => ⟨pc,hat,rfl⟩,fun hno => Or.inr ⟨pc,set,s,hat,hc.resolve_left fun h93 => hno ?_,rfl⟩⟩
      cases s with
      | nil => cases h93
      | cons c t => exact congrArg some h93
    · rw [if_neg hc]
      refine ⟨fun h93 => absurd (Or.inl ?_) hc,fun hno => Or.inl ?_⟩
      · rw [List.headD_eq_head?_getD,h93]
        rfl
      · obtain ⟨e,he⟩ := classAddChar_none hat set (h.resolve_left hno)
        exact ⟨e,by rw [bind_ok he]; rfl⟩
  | step s it n hq h ih =>
    have hn := rangeItem_advances _ _ _ h
    obtain ⟨f,rfl⟩ := Nat.exists_eq_succ_of_ne_zero (show f ≠ 0 by omega)
    have hchar : charItem s ≠ none := fun hh => by
      rw [rangeItem_none.2 hh] at h
      cases h
    have hc : ¬(s.headD 0 = 93 ∨ s.headD 0 = 0) := by
      rintro (hc | hc)
      · cases s with
        | nil => cases hc
        | cons c t => exact hq (congrArg some hc)
      · exact hchar (charItem_none.2 (if_pos hc))
    have hbody : classBody s = (it :: (classBody (s.drop n)).1,(classBody (s.drop n)).2) := items_step rangeItem_advances hq h
    have hle := (items_rest rangeItem_advances 93 (s.drop n)).2.length_le
    rw [hbody] at hcr ⊢
    rw [classSet,bind_ok (rest_at hat),if_neg hc]
    obtain ⟨pc',hat',hrun⟩ | ⟨⟨e,he⟩,hdash,hnone⟩ := classAddChar_run hat set h fun u hu hlen => hcr u hu (by
      change (items rangeItem 93 (s.drop n)).2.length < u.length
      rw [List.length_drop] at hle
      omega)
    · rw [bind_ok hrun]
      exact ih (s.drop n) (by rw [List.length_drop]; omega) hat' (fun u hu => hcr u (hu.trans (List.drop_suffix n s)))
        (by rw [List.length_drop]; omega) (addItem set it)
    · refine ⟨fun h93 => absurd h93 (classBody_dash hdash hnone),fun _ => Or.inl ⟨e,?_⟩⟩
      rw [bind_ok he]
      rfl

end Loop

/-! ## parse_class -/

section Class

variable {E : Env} {pc : PegCursor} {s : List UInt8}

theorem readClass_run (hat : At E.input pc (91 :: s)) (hcr : NoCrLf s (classBody s).2) (hf : E.input.length < E.fuel) :
    ((classBody s).2.head? = some 93 → Makes E .cls pc.line (fun set => set = (classBody s).1.foldl addItem csetClear)
      (classBody s).2.tail (readClass E pc)) ∧
    ((classBody s).2.head? ≠ some 93 → Rejects (readClass E pc)) := by
  have hlen := hat.length
  rw [List.length_cons] at hlen
  have hhd : (91 :: s).headD 0 = 91 := rfl
  have h91 : ¬((91 : UInt8) ≠ 91 ∧ (91 : UInt8) ≠ 46) := by decide
  have h46 : ¬(91 : UInt8) = 46 := by decide
  have hchars : classChars E.input 91 E.fuel pc = classSet E.input E.fuel (pc.skip 1) csetClear := if_neg h46
  obtain ⟨hyes,hno⟩ := classSet_run hat.tail hcr (f := E.fuel) (by omega) csetClear
  constructor
  · intro hend
    obtain ⟨pc',hat',hset⟩ := hyes hend
    obtain ⟨t,ht⟩ := List.head?_eq_some_iff.1 hend
    rw [ht] at hat' ⊢
    intro st st' nn hs
    have hmalloc := malloc_ok hs.string
    have hlength := (addItems_spec (classBody s).1 (show csetClear.length = 32 from rfl)).1
    obtain ⟨pn,hpn⟩ : ∃ pn, st'.peg.nodes[nn]? = some pn := ⟨_,List.getElem?_eq_getElem (pegNodeNew_here hs.new)⟩
    have hupd := fun f => updNode_ok (s := { st' with tried := st'.tried + 1, live := st'.tried :: st'.live }) hpn f
    refine ⟨{ st' with tried := st'.tried + 1, live := st'.tried :: st'.live }.withNode nn
      { pn with str := ⟨.block st'.tried ((classBody s).1.foldl addItem csetClear),some 32⟩ },
      pc'.skip 1,st'.tried,(classBody s).1.foldl addItem csetClear,?_,hat'.tail,?_,rfl⟩
    · rw [readClass,bind_ok (lift_ok (rest_at hat)),hhd,if_neg h91,bind_ok hs.new]
      dsimp only
      rw [bind_ok hmalloc]
      dsimp only
      rw [hchars,bind_ok (lift_ok hset)]
      dsimp only
      rw [bind_ok (lift_ok (rest_at hat')),if_neg (fun hh => absurd (show (93 : UInt8) = 0 from hh.2) (by decide)),bind_ok
          (congrArg Ran.result (hupd _))]
      rfl
    · show (List.set st'.peg.nodes nn _)[nn]?.map _ = _
      rw [List.getElem?_set_self (pegNodeNew_here hs.new),hlength]
      rfl
  · intro hend st st' r hr
    have key : Run (fun _ => True) (fun _ => True) (readClass E pc) st fun r _ => r = .fail () := by
      rw [readClass]
      refine Run.bind (Run.of_ok (lift_ok (rest_at hat))) ?_
      rintro _ _ ⟨rfl,rfl⟩
      rw [hhd,if_neg h91]
      refine Run.bind Run.any fun o t _ => ?_
      cases o with
      | none => exact Run.modified (Run.pure rfl)
      | some nn =>
        refine Run.bind Run.any fun o t _ => ?_
        cases o with
        | none => exact Run.noted fun _ => Run.bind Run.any fun _ _ _ => Run.modified (Run.pure rfl)
        | some id =>
          dsimp only
          rw [hchars]
          obtain ⟨e,he⟩ | ⟨pc',set',u,hat',hu,hset⟩ := hno hend
          · refine Run.bind (Run.of_ok (lift_ok he)) ?_
            rintro _ _ ⟨rfl,rfl⟩
            exact Run.modified (Run.noted fun _ => Run.pure rfl)
          · refine Run.bind (Run.of_ok (lift_ok hset)) ?_
            rintro _ _ ⟨rfl,rfl⟩
            refine Run.bind (Run.of_ok (lift_ok (rest_at hat'))) ?_
            rintro _ _ ⟨rfl,rfl⟩
            rw [if_pos ⟨by decide,hu⟩]
            exact Run.modified (Run.noted fun _ => Run.bind Run.any fun _ _ _ => Run.bind Run.any fun _ _ _ => Run.pure rfl)
    exact (key fun _ _ => trivial).1 r st' hr

/-- What the grammar comment asks of a class whose bracket is in front of `s`: the bytes that it denotes and
the text behind the closing bracket, or no class where there is no closing bracket. -/
def ClassRight (input : List UInt8) (pc : PegCursor) (s : List UInt8) : Prop :=
  ∀ E : Env, E.input = input → input.length < E.fuel →
    ((classBody s).2.head? = some 93 → Makes E .cls pc.line
      (fun set => ∀ b, csetContains set b = some true ↔ ∃ it ∈ (classBody s).1, it.Denotes b) (classBody s).2.tail (readClass E pc)) ∧
    ((classBody s).2.head? ≠ some 93 → Rejects (readClass E pc))

/-- In a class that is closed, what a mixed range fails to add some range adds, and what it adds some range denotes. -/
def ClassFine (s : List UInt8) : Prop :=
  (classBody s).2.head? = some 93 → ∀ it ∈ (classBody s).1, it.Mixed →
    (∀ b, it.Denotes b → ∃ it' ∈ (classBody s).1, it'.Adds b) ∧ ∀ b, it.Adds b → ∃ it' ∈ (classBody s).1, it'.Denotes b

theorem fine_iff (l : List ClassItem) : (∀ b, (∃ it ∈ l, it.Adds b) ↔ ∃ it ∈ l, it.Denotes b) ↔
    ∀ it ∈ l, it.Mixed → (∀ b, it.Denotes b → ∃ it' ∈ l, it'.Adds b) ∧ ∀ b, it.Adds b → ∃ it' ∈ l, it'.Denotes b := by
  constructor
  · exact fun h it hit _ => ⟨fun b hb => (h b).2 ⟨it,hit,hb⟩,fun b hb => (h b).1 ⟨it,hit,hb⟩⟩
  · intro h b
    constructor
    · rintro ⟨it,hit,hb⟩
      by_cases hm : it.Mixed
      · exact (h it hit hm).2 b hb
      · exact ⟨it,hit,(ClassItem.adds_iff hm b).1 hb⟩
    · rintro ⟨it,hit,hb⟩
      by_cases hm : it.Mixed
      · exact (h it hit hm).1 b hb
      · exact ⟨it,hit,(ClassItem.adds_iff hm b).2 hb⟩

theorem class_right_iff {input : List UInt8} (hat : At input pc (91 :: s)) (hcr : NoCrLf s (classBody s).2) :
    ClassRight input pc s ↔ ClassFine s := by
  have hset : ∀ b, csetContains ((classBody s).1.foldl addItem csetClear) b = some true ↔ ∃ it ∈ (classBody s).1, it.Adds b := fun b =>
    ((addItems_spec (classBody s).1 (show csetClear.length = 32 from rfl)).2 b).trans (or_iff_left (csetClear_empty b))
  constructor
  · intro h hend
    obtain ⟨st',hst'⟩ := supplied_start input .cls pc.line
    have hrun := readClass_run (E := ⟨input,false,fun _ => false,fun _ => -1,input.length + 1⟩) hat hcr (Nat.lt_succ_self _)
    obtain ⟨-,set,hset',rfl⟩ := ((h _ rfl (Nat.lt_succ_self _)).1 hend).agree (hrun.1 hend) hst'
    exact (fine_iff _).1 fun b => (hset b).symm.trans (hset' b)
  · rintro hfine E rfl hfuel
    obtain ⟨h1,h2⟩ := readClass_run hat hcr hfuel
    refine ⟨fun hend st st' nn hs => ?_,h2⟩
    obtain ⟨st'',pc',id,set,hr,hat',hstr,rfl⟩ := h1 hend st st' nn hs
    exact ⟨st'',pc',id,_,hr,hat',hstr,fun b => (hset b).trans ((fine_iff _).2 (hfine hend) b)⟩

/-- **A literal is read right exactly when none of its characters is an escape for the quote and, where it is
closed, it has no newline behind a carriage return; a class without such a newline exactly when the mixed ranges
change nothing.** -/
theorem literal_class_iff (input : List UInt8) (pc : PegCursor) :
    (∀ q s, At input pc (q :: s) → IsQuote q → (LiteralRight input pc q s ↔ LiteralFine q s)) ∧
    ∀ s, At input pc (91 :: s) → NoCrLf s (classBody s).2 → (ClassRight input pc s ↔ ClassFine s) :=
  ⟨fun _ _ hat hq => literal_right_iff hat hq,fun _ hat hcr => class_right_iff hat hcr⟩

theorem literal_class_a : LiteralRight [39,97,39] ⟨0,1⟩ 39 [97,39] ∧ ClassRight [91,97,93] ⟨0,1⟩ [97,93] := by
  have hcr : ∀ u ∈ [97,93].tails, crLf u = false := by decide
  refine ⟨((literal_class_iff _ _).1 39 _ ⟨Nat.zero_le _,rfl⟩ (Or.inr rfl)).2 ⟨?_,fun _ => ?_⟩,
    ((literal_class_iff _ _).2 _ ⟨Nat.zero_le _,rfl⟩ fun u hu _ => hcr u ((List.mem_tails _ _).2 hu)).2 fun _ it hit hm => ?_⟩
  · intro it hit hq
    rw [List.mem_singleton.1 hit] at hq
    exact absurd hq.2 (by decide)
  · show ¬[crItem,lfItem] <:+: [([97],97)]
    exact fun h => absurd h.length_le (by decide)
  · rw [List.mem_singleton.1 hit] at hm
    exact absurd Iff.rfl hm

/-- `'a\'b'` denotes `a'b`; it is read as `a`, and what is behind it begins at the escaped quote. -/
theorem readLiteral_escaped : body 39 [97,92,39,98,39] = ([([97],97),([92,39],39),([98],98)],[39]) ∧
    ∃ st, (readLiteral ⟨[39,97,92,39,98,39],false,fun _ => false,fun _ => -1,9⟩ ⟨0,1⟩ pegStart).result = .ok (.yes (0,⟨3,1⟩),st) ∧
      (st.peg.nodes[0]?).map (·.str) = some ⟨.block 1 [97],some 1⟩ := ⟨by decide,_,rfl,rfl⟩

end Class

end Catlib.Peg.Parser
