import Catlib.Matching.BoyerMoore
import Catlib.Text.Utf8Chars

/-! # The searches in catstr.c

A string keeps its buffer, which may be missing, and how much of it is in use. The searches for bytes
hand the work to the matcher of Boyer and Moore with a pattern prepared without skips. The
place that the matcher stores has no value before it does.
-/
namespace Catlib.Text
open Matching

structure Catstr where
  size : ℕ
  dlen : ℕ
  data : Option (List UInt8)

def csMaxlen : ℕ := 2 ^ 64 - 1 - 3
def csError : ℕ := csMaxlen + 1
def csNotfound : ℕ := csMaxlen + 2

/-- `CKCS`: the length and the buffer of a string that passes. -/
def ckcs : Option Catstr → Option (ℕ × List UInt8)
  | none => none
  | some cs => if cs.size > csMaxlen ∨ cs.dlen > cs.size then none else cs.data.map fun data => (cs.dlen,data)

/-- `cs_find_raw`; `last` is what the pattern on the stack holds before it is prepared. -/
def csFindRaw (findin : Option Catstr) (r : List UInt8) (last : UInt8 → ℕ) (fuel : ℕ) : Option ℕ :=
  match ckcs findin with
  | none => some csError
  | some (dlen,data) => do
    let bmp ← bmPinitLite r last
    let (rv,off) ← bmMatch (data.take dlen) bmp true fuel
    if rv < 0 then return csNotfound else off

def csFind (findin find : Option Catstr) (last : UInt8 → ℕ) (fuel : ℕ) : Option ℕ :=
  if ckcs findin = none then some csError
  else
    match ckcs find with
    | none => some csError
    | some (dlen,data) => csFindRaw findin (data.take dlen) last fuel

def strlen : List UInt8 → Option ℕ
  | [] => none
  | c :: s => if c = 0 then some 0 else (strlen s).map (· + 1)

def csFindStr (findin : Option Catstr) (s : List UInt8) (last : UInt8 → ℕ) (fuel : ℕ) : Option ℕ :=
  if ckcs findin = none then some csError
  else do
    let len ← strlen s
    csFindRaw findin (s.take len) last fuel

/-- The loop of `cs_find_uc` that compares two characters, with `k` bytes to come. -/
def cmpFrom (scp fcp : List UInt8) (off : ℕ) : ℕ → ℕ → Option ℕ
  | i, 0 => some i
  | i, k + 1 => do
    let a ← scp[off + i]?
    let b ← fcp[i]?
    if a ≠ b then return i else cmpFrom scp fcp off (i + 1) k

/-- One turn of the loop over the characters; it leaves without a place where a byte starts none. -/
def findUcBody (scp fcp : List UInt8) (dlen : ℕ) (fcs : ℤ) (off : ℕ) : Option (Turn ℕ (Option ℕ)) :=
  if off < dlen then do
    let c ← scp[off]?
    let scs := utf8Nbytes c
    if scs < 0 then return .leave none
    else if fcs ≠ scs then return .again (off + scs.toNat)
    else
      let i ← cmpFrom scp fcp off 0 scs.toNat
      if i = scs.toNat then return .again (off + scs.toNat) else return .leave (some off)
  else some (.leave (some off))

def csFindUc (cs : Option Catstr) (utf8ch : Option (List UInt8)) (fuel : ℕ) : Option ℕ :=
  match ckcs cs with
  | none => some csError
  | some (dlen,scp) => do
    let fcp ← utf8ch
    let fcs := utf8Nbytes (← fcp[0]?)
    if fcs < 0 then return csError
    else
      match ← loop (findUcBody scp fcp dlen fcs) fuel 0 with
      | none => return csError
      | some off => if off = dlen then return csNotfound else return off

variable {cs findin find : Catstr} {text pat ch m u rest scp fcp : List UInt8} {chars : List (List UInt8)} {v i j k n r off fuel : ℕ}

/-! ## Strings -/

/-- A sound string whose bytes in use are `text`. -/
structure Holds (cs : Catstr) (text : List UInt8) : Prop where
  size : cs.size ≤ csMaxlen
  dlen : cs.dlen ≤ cs.size
  data : ∃ rest, cs.data = some (text ++ rest)
  length : cs.dlen = text.length

theorem Holds.ckcs (h : Holds cs text) : ∃ rest, ckcs (some cs) = some (text.length,text ++ rest) := by
  obtain ⟨rest,hdata⟩ := h.data
  have hsize := h.size
  have hdlen := h.dlen
  refine ⟨rest,?_⟩
  rw [Text.ckcs,if_neg (by omega),hdata,h.length]
  exact rfl

/-- What the searches say: the place found, or that there is none. -/
def csFound : Option ℕ → ℕ
  | some off => off
  | none => csNotfound

theorem csFindRaw_aborts (h : Holds findin text) (r : List UInt8) (last : UInt8 → ℕ) (fuel : ℕ) :
    csFindRaw (some findin) r last fuel = none := by
  obtain ⟨rest,hck⟩ := h.ckcs
  have hlite : ∀ lite, bmPinitLite r last = some lite → lite.skips = none := by
    intro lite hl
    rw [bmPinitLite] at hl
    split at hl
    · cases hl
    · split at hl <;> cases hl <;> rfl
  rw [csFindRaw,hck]
  cases hl : bmPinitLite r last with
  | none => rfl
  | some lite => simp [bmMatch_lite (hlite lite hl)]

theorem csFind_aborts (h : Holds findin text) (h' : Holds find pat) (last : UInt8 → ℕ) (fuel : ℕ) :
    csFind (some findin) (some find) last fuel = none := by
  obtain ⟨rest,hck⟩ := h.ckcs
  obtain ⟨rest',hck'⟩ := h'.ckcs
  rw [csFind,if_neg (by rw [hck]; exact Option.some_ne_none _),hck']
  exact csFindRaw_aborts h _ last fuel

theorem csFindStr_aborts (h : Holds findin text) (s : List UInt8) (last : UInt8 → ℕ) (fuel : ℕ) :
    csFindStr (some findin) s last fuel = none := by
  obtain ⟨rest,hck⟩ := h.ckcs
  rw [csFindStr,if_neg (by rw [hck]; exact Option.some_ne_none _)]
  cases hs : strlen s with
  | none => rfl
  | some n => exact csFindRaw_aborts h _ last fuel

/-! ## Characters -/

theorem enc_front (hm : ∃ v, Enc v m) (hch : ∃ v, Enc v ch) (h : ch <+: m ++ rest) : ch = m := by
  obtain ⟨v,hm⟩ := hm
  obtain ⟨w,hch⟩ := hch
  obtain ⟨a,s,rfl,hlen,-⟩ := hm.nbytes
  obtain ⟨b,t,rfl,hlen',-⟩ := hch.nbytes
  obtain ⟨hba,htail⟩ := List.cons_prefix_cons.mp h
  subst hba
  have heq : (b :: t).length = (b :: s).length := by
    rw [hlen] at hlen'
    exact_mod_cast hlen'.symm
  exact (List.prefix_of_prefix_length_le h (List.prefix_append _ _) (Nat.le_of_eq heq)).eq_of_length heq

theorem mem_of_occursAt (hchars : ∀ m ∈ chars, ∃ v, Enc v m) (hch : ∃ v, Enc v ch) (h : OccursAt ch chars.flatten j) : ch ∈ chars := by
  induction chars generalizing j with
  | nil =>
    obtain ⟨v,hch⟩ := hch
    have hlen := h.length_le (List.ne_nil_of_length_pos hch.length_pos)
    have hpos := hch.length_pos
    simp only [List.flatten_nil, List.length_nil] at hlen
    omega
  | cons m chars ih =>
    rw [List.forall_mem_cons] at hchars
    rw [OccursAt,List.flatten_cons] at h
    rcases Nat.lt_or_ge j m.length with hj | hj
    · cases j with
      | zero => exact List.mem_cons.mpr (Or.inl (enc_front hchars.1 hch h))
      | succ j =>
        -- inside a character there are tails, and no character starts with one
        exfalso
        obtain ⟨v,hm⟩ := hchars.1
        obtain ⟨w,hch⟩ := hch
        obtain ⟨a,s,rfl,-,htails⟩ := hm.nbytes
        obtain ⟨b,t,rfl,hlen,-⟩ := hch.nbytes
        have hj' : j < s.length := Nat.lt_of_succ_lt_succ hj
        rw [List.cons_append,List.drop_succ_cons,List.drop_append_of_le_length (Nat.le_of_lt hj'),
          List.drop_eq_getElem_cons hj',List.cons_append] at h
        have hb := (List.cons_prefix_cons.mp h).1
        have htail := htails _ (List.getElem_mem hj')
        rw [← hb] at htail
        rw [utf8Nbytes_eq,if_neg (Nat.not_lt.mpr htail.1),if_pos htail.2] at hlen
        have := Int.natCast_nonneg (b :: t).length
        omega
    · rw [List.drop_append,List.drop_eq_nil_of_le hj,List.nil_append] at h
      exact List.mem_cons_of_mem _ (ih hchars.2 h)

theorem cmpFrom_spec (hs : ∀ x < n, ∃ a, scp[off + x]? = some a) (hf : ∀ x < n, ∃ b, fcp[x]? = some b) (hk : i + k = n) :
    ∃ r, cmpFrom scp fcp off i k = some r ∧ (r = n ↔ ∀ x, i ≤ x → x < n → scp[off + x]? = fcp[x]?) := by
  induction k generalizing i with
  | zero => exact ⟨i,rfl,fun _ x hx hxn => by omega,fun _ => hk⟩
  | succ k ih =>
    obtain ⟨a,ha⟩ := hs i (by omega)
    obtain ⟨b,hb⟩ := hf i (by omega)
    by_cases hab : a = b
    · obtain ⟨r,hr,hiff⟩ := ih (show i + 1 + k = n by omega)
      refine ⟨r,by simp [cmpFrom, ha, hb, hab, hr],hiff.trans ⟨fun h x hx hxn => ?_,fun h x hx hxn => h x (by omega) hxn⟩⟩
      rcases Nat.lt_or_eq_of_le hx with hx | rfl
      · exact h x hx hxn
      · rw [ha,hb,hab]
    · refine ⟨i,by simp [cmpFrom, ha, hb, hab],fun h => by omega,fun h => absurd ?_ hab⟩
      have := h i le_rfl (by omega)
      rw [ha,hb] at this
      exact Option.some.inj this

theorem cmpFrom_chars (hscp : scp = u ++ (m ++ rest)) (hfcp : ∃ rest', fcp = ch ++ rest') (hlen : m.length = ch.length) :
    ∃ r, cmpFrom scp fcp u.length 0 m.length = some r ∧ (r = m.length ↔ m = ch) := by
  obtain ⟨rest',rfl⟩ := hfcp
  subst hscp
  have hs : ∀ x < m.length, (u ++ (m ++ rest))[u.length + x]? = m[x]? := fun x hx => by
    rw [List.getElem?_append_right (Nat.le_add_right _ _),Nat.add_sub_cancel_left,List.getElem?_append_left hx]
  have hf : ∀ x < m.length, (ch ++ rest')[x]? = ch[x]? := fun x hx => List.getElem?_append_left (hlen ▸ hx)
  obtain ⟨r,hr,hiff⟩ := cmpFrom_spec (fun x hx => ⟨m[x],by rw [hs x hx,List.getElem?_eq_getElem hx]⟩)
    (fun x hx => ⟨ch[x],by rw [hf x hx,List.getElem?_eq_getElem]⟩) (Nat.zero_add m.length)
  refine ⟨r,hr,hiff.trans ⟨fun h => List.ext_getElem? fun x => ?_,fun h x _ hx => by rw [hs x hx,hf x hx,h]⟩⟩
  by_cases hx : x < m.length
  · rw [← hs x hx,h x (Nat.zero_le x) hx,hf x hx]
  · rw [List.getElem?_eq_none (Nat.le_of_not_lt hx),List.getElem?_eq_none (by omega)]

/-- The search stops at the first character that has the length of the given one and differs from it. -/
inductive Stops (ch : List UInt8) : List (List UInt8) → ℕ → Prop
  | ended : Stops ch [] 0
  | here {m : List UInt8} {chars : List (List UInt8)} (hlen : m.length = ch.length) (hne : m ≠ ch) : Stops ch (m :: chars) 0
  | next {m : List UInt8} {chars : List (List UInt8)} {r : ℕ} (hm : m.length = ch.length → m = ch) (h : Stops ch chars r) :
      Stops ch (m :: chars) (m.length + r)

theorem findUc_loop (hchars : ∀ m ∈ chars, ∃ v, Enc v m) (hscp : scp = u ++ (chars.flatten ++ rest)) (hfcp : ∃ rest', fcp = ch ++ rest')
    (hfuel : chars.length < fuel) :
    ∃ r, loop (findUcBody scp fcp (u.length + chars.flatten.length) ch.length) fuel u.length = some (some (u.length + r)) ∧
      Stops ch chars r := by
  induction chars generalizing u fuel with
  | nil =>
    cases fuel with
    | zero => exact absurd hfuel (Nat.not_lt_zero _)
    | succ fuel => exact ⟨0,loop_leave (if_neg (by simp)),.ended⟩
  | cons m chars ih =>
    rw [List.forall_mem_cons] at hchars
    obtain ⟨v,hm⟩ := hchars.1
    have hpos := hm.length_pos
    obtain ⟨c,s,hms,hnb,-⟩ := hm.nbytes
    cases fuel with
    | zero => exact absurd hfuel (Nat.not_lt_zero _)
    | succ fuel =>
      have hscp' : scp = u ++ (m ++ (chars.flatten ++ rest)) := by rw [hscp,List.flatten_cons,List.append_assoc]
      have hread : scp[u.length]? = some c := by rw [hscp',hms]; simp
      have hoff : u.length < u.length + (m :: chars).flatten.length := by
        rw [List.flatten_cons,List.length_append]
        omega
      have hneg : ¬(m.length : ℤ) < 0 := by omega
      obtain ⟨r,hrun,hstops⟩ := ih hchars.2 (u := u ++ m) (by rw [hscp',List.append_assoc]) (Nat.lt_of_succ_lt_succ hfuel)
      have htotal : (u ++ m).length + chars.flatten.length = u.length + (m :: chars).flatten.length := by
        rw [List.length_append,List.flatten_cons,List.length_append,Nat.add_assoc]
      rw [htotal,List.length_append,Nat.add_assoc u.length] at hrun
      by_cases hlen : m.length = ch.length
      · obtain ⟨i,hcmp,hi⟩ := cmpFrom_chars hscp' hfcp hlen
        by_cases hme : m = ch
        · refine ⟨m.length + r,(loop_again ?_).trans hrun,.next (fun _ => hme) hstops⟩
          rw [findUcBody,if_pos hoff,hread]
          simp [hnb, hneg, ← hlen, hcmp, hi.mpr hme]
        · refine ⟨0,loop_leave ?_,.here hlen hme⟩
          have hi' : ¬i = m.length := fun h => hme (hi.mp h)
          rw [findUcBody,if_pos hoff,hread]
          simp [hnb, hneg, ← hlen, hcmp, hi']
      · refine ⟨m.length + r,(loop_again ?_).trans hrun,.next (fun h => absurd h hlen) hstops⟩
        have hlen' : (ch.length : ℤ) ≠ m.length := fun h => hlen (by exact_mod_cast h.symm)
        rw [findUcBody,if_pos hoff,hread]
        simp [hnb, hneg, hlen']

theorem Stops.cases (h : Stops ch chars r) : r = chars.flatten.length ∧ (∀ m ∈ chars, m.length = ch.length → m = ch) ∨
    ∃ pre m post, chars = pre ++ m :: post ∧ r = pre.flatten.length ∧ m.length = ch.length ∧ m ≠ ch := by
  induction h with
  | ended => exact Or.inl ⟨rfl,fun m hm => absurd hm List.not_mem_nil⟩
  | @here m chars hlen hne => exact Or.inr ⟨[],m,chars,rfl,rfl,hlen,hne⟩
  | @next m chars r hm h ih =>
    rcases ih with ⟨hr,hall⟩ | ⟨pre,m',post,hsplit,hr,hlen,hne⟩
    · exact Or.inl ⟨by rw [List.flatten_cons,List.length_append,hr],List.forall_mem_cons.mpr ⟨hm,hall⟩⟩
    · exact Or.inr ⟨m :: pre,m',post,by rw [hsplit,List.cons_append],by rw [List.flatten_cons,List.length_append,hr],hlen,hne⟩

theorem csFindUc_spec (hchars : ∀ m ∈ chars, ∃ v, Enc v m) (h : Holds cs chars.flatten) (hch : ∃ v, Enc v ch) (rest : List UInt8)
    (hfuel : chars.length < fuel) : ∃ r, Stops ch chars r ∧
      csFindUc (some cs) (some (ch ++ rest)) fuel = some (if r = chars.flatten.length then csNotfound else r) := by
  obtain ⟨rest',hck⟩ := h.ckcs
  obtain ⟨v,hch⟩ := hch
  obtain ⟨c,s,hcs,hnb,-⟩ := hch.nbytes
  obtain ⟨r,hrun,hstops⟩ := findUc_loop hchars (show chars.flatten ++ rest' = [] ++ (chars.flatten ++ rest') from rfl) ⟨rest,rfl⟩ hfuel
  refine ⟨r,hstops,?_⟩
  have hread : (ch ++ rest)[0]? = some c := by rw [hcs]; rfl
  have hneg : ¬(ch.length : ℤ) < 0 := by omega
  simp only [List.length_nil, Nat.zero_add] at hrun
  rw [csFindUc,hck]
  simp only [Option.bind_eq_bind, Option.bind_some, hread, hnb, if_neg hneg, hrun]
  split <;> rfl

theorem csFindUc_grows (cs : Option Catstr) (utf8ch : Option (List UInt8)) {k m : ℕ} (hkm : k ≤ m) :
    Grows (csFindUc cs utf8ch k) (csFindUc cs utf8ch m) := by
  unfold csFindUc
  cases ckcs cs with
  | none => exact Grows.refl _
  | some scp =>
    exact Grows.bind (Grows.refl _) fun fcp => Grows.bind (Grows.refl _) fun c =>
      Grows.ite (Grows.refl _) (Grows.bind (loop_grows hkm _) fun _ => Grows.refl _)

theorem Holds.lt_notfound (h : Holds cs text) : text.length < csNotfound := by
  have hsize := h.size
  have hdlen := h.dlen
  rw [← h.length,csNotfound]
  omega

theorem occursAt_chars (pre post : List (List UInt8)) :
    OccursAt ch (pre ++ m :: post).flatten pre.flatten.length ↔ ch <+: m ++ post.flatten := by
  rw [OccursAt,List.flatten_append,List.drop_left,List.flatten_cons]

theorem csFindUc_iff (hchars : ∀ m ∈ chars, ∃ v, Enc v m) (h : Holds cs chars.flatten) (hch : ∃ v, Enc v ch) (rest : List UInt8) :
    (∃ fuel found, Finds ch chars.flatten found ∧ csFindUc (some cs) (some (ch ++ rest)) fuel = some (csFound found)) ↔
      ∀ m ∈ chars, m.length ≠ ch.length := by
  obtain ⟨r,hstops,hrun⟩ := csFindUc_spec hchars h hch rest (Nat.lt_succ_self _)
  have hlt := h.lt_notfound
  constructor
  · rintro ⟨fuel,found,hfinds,hrun'⟩
    have hagree := Grows.agree (fun _ _ => csFindUc_grows _ _) hrun hrun'
    rcases hstops.cases with ⟨hr,hall⟩ | ⟨pre,m,post,hsplit,hr,hlen,hne⟩
    · rw [if_pos hr] at hagree
      cases found with
      | none =>
        intro m hm hlen
        obtain ⟨pre,post,hsplit⟩ := List.append_of_mem hm
        refine hfinds pre.flatten.length ?_
        rw [hsplit,occursAt_chars,hall m hm hlen]
        exact List.prefix_append _ _
      | some i =>
        have hle := hfinds.1.length_le (List.ne_nil_of_length_pos hch.choose_spec.length_pos)
        rw [csFound] at hagree
        omega
    · subst hsplit hr
      have hm := hchars m (List.mem_append_right _ List.mem_cons_self)
      have hpos := hm.choose_spec.length_pos
      have hend : pre.flatten.length < (pre ++ m :: post).flatten.length := by
        rw [List.flatten_append,List.flatten_cons,List.length_append,List.length_append]
        omega
      rw [if_neg (Nat.ne_of_lt hend)] at hagree
      cases found with
      | none =>
        rw [csFound] at hagree
        omega
      | some i =>
        subst hagree
        exact absurd (enc_front hm hch ((occursAt_chars pre post).mp hfinds.1)).symm hne
  · intro hno
    rcases hstops.cases with ⟨hr,-⟩ | ⟨pre,m,post,hsplit,-,hlen,-⟩
    · rw [if_pos hr] at hrun
      exact ⟨_,none,fun j hocc => hno ch (mem_of_occursAt hchars hch hocc) rfl,hrun⟩
    · exact absurd hlen (hno m (by rw [hsplit]; exact List.mem_append_right _ List.mem_cons_self))

/-- The three searches for bytes never answer. The search for a character answers with its first
occurrence exactly if the string has no character of its length. -/
theorem csFind_spec_iff (findin find cs : Catstr) (text pat r s ch rest : List UInt8) (chars : List (List UInt8)) (last : UInt8 → ℕ)
    (hfindin : Holds findin text) (hfind : Holds find pat) (hcs : Holds cs chars.flatten)
    (hchars : ∀ m ∈ chars, ∃ v, Enc v m) (hch : ∃ v, Enc v ch) :
    (¬∃ fuel found, Finds pat text found ∧ csFind (some findin) (some find) last fuel = some (csFound found)) ∧
    (¬∃ fuel n found, strlen s = some n ∧ Finds (s.take n) text found ∧ csFindStr (some findin) s last fuel = some (csFound found)) ∧
    (¬∃ fuel found, Finds r text found ∧ csFindRaw (some findin) r last fuel = some (csFound found)) ∧
    ((∃ fuel found, Finds ch chars.flatten found ∧ csFindUc (some cs) (some (ch ++ rest)) fuel = some (csFound found)) ↔
      ∀ m ∈ chars, m.length ≠ ch.length) := by
  refine ⟨fun ⟨fuel,found,_,hrun⟩ => ?_,fun ⟨fuel,n,found,_,_,hrun⟩ => ?_,fun ⟨fuel,found,_,hrun⟩ => ?_,?_⟩
  · rw [csFind_aborts hfindin hfind] at hrun
    cases hrun
  · rw [csFindStr_aborts hfindin] at hrun
    cases hrun
  · rw [csFindRaw_aborts hfindin] at hrun
    cases hrun
  · exact csFindUc_iff hchars hcs hch rest

theorem csFind_spec_iff_two :
    (¬∃ fuel found, Finds ([0x62] : List UInt8) [0x61] found ∧
      csFind (some ⟨1,1,some [0x61,0]⟩) (some ⟨1,1,some [0x62,0]⟩) (fun _ => 0) fuel = some (csFound found)) ∧
    (¬∃ fuel n found, strlen [0x61,0] = some n ∧ Finds (([0x61,0] : List UInt8).take n) [0x61] found ∧
      csFindStr (some ⟨1,1,some [0x61,0]⟩) [0x61,0] (fun _ => 0) fuel = some (csFound found)) ∧
    (¬∃ fuel found, Finds ([0x61] : List UInt8) [0x61] found ∧
      csFindRaw (some ⟨1,1,some [0x61,0]⟩) [0x61] (fun _ => 0) fuel = some (csFound found)) ∧
    ((∃ fuel found, Finds ([0xC3,0xA4] : List UInt8) ([[0x61]] : List (List UInt8)).flatten found ∧
        csFindUc (some ⟨1,1,some [0x61,0]⟩) (some ([0xC3,0xA4] ++ [])) fuel = some (csFound found)) ↔
      ∀ m ∈ ([[0x61]] : List (List UInt8)), m.length ≠ [0xC3,0xA4].length) :=
  csFind_spec_iff ⟨1,1,some [0x61,0]⟩ ⟨1,1,some [0x62,0]⟩ ⟨1,1,some [0x61,0]⟩ [0x61] [0x62] [0x61] [0x61,0] [0xC3,0xA4] [] [[0x61]]
    (fun _ => 0) ⟨by decide,by decide,⟨[0],rfl⟩,rfl⟩ ⟨by decide,by decide,⟨[0],rfl⟩,rfl⟩
    ⟨by decide,by decide,⟨[0],rfl⟩,rfl⟩ (fun m hm => ⟨0x61,List.mem_singleton.mp hm ▸ .one (by decide) (by decide)⟩)
    ⟨0xE4,.two (by decide) ⟨by decide,by decide⟩ (by decide) (by decide)⟩

/-- The letter `a` in the string `a`: the search for bytes aborts, and the one for a character passes it over. -/
theorem csFind_a : (∀ fuel, csFindRaw (some ⟨1,1,some [0x61,0]⟩) [0x61] (fun _ => 0) fuel = none) ∧
    Finds [0x61] ([0x61] : List UInt8) (some 0) ∧
    csFindUc (some ⟨1,1,some [0x61,0]⟩) (some [0x61,0]) 3 = some csNotfound :=
  ⟨csFindRaw_aborts (show Holds _ [0x61] from ⟨by decide,by decide,⟨[0],rfl⟩,rfl⟩) _ _,
    ⟨List.prefix_refl _,fun j hj => absurd hj (Nat.not_lt_zero j)⟩,by decide⟩

end Catlib.Text
