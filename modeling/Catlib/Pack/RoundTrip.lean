import Catlib.Pack.Pack
import Mathlib.Data.List.TakeWhile

/-! # What pack writes, unpack reads

Both loops read the same items off the format. An item that reads `e` or `E` is never left
again by either loop, so every format that comes back is big endian throughout.
-/
namespace Catlib.Pack

/-- An item of a format; a count of zero stands for a single number. -/
structure Item where
  count : ℕ
  width : Width
  sgn : Bool
  deriving DecidableEq

def Item.reps (it : Item) : ℕ := max 1 it.count

/-- The range of the numbers of an item. -/
def Item.InRange (it : Item) (v : ℤ) : Prop :=
  if it.sgn then -2 ^ (8 * psiz it.width - 1) ≤ v ∧ v < 2 ^ (8 * psiz it.width - 1)
  else 0 ≤ v ∧ v < 2 ^ (8 * psiz it.width)

/-- The items of a format, up to the first error. -/
def itemsUpTo : ℕ → List Char → List Item
  | 0, _ => []
  | _ + 1, [] => []
  | k + 1, c :: s =>
    if isOrder c then itemsUpTo k s
    else
      match parseCount 0 (c :: s) with
      | some (count,l :: s') =>
        match letter l with
        | some (w,sgn) => ⟨count,w,sgn⟩ :: itemsUpTo k s'
        | none => []
      | _ => []

def items (fmt : List Char) : List Item := itemsUpTo fmt.length fmt

/-! ## One number -/

theorem psiz_pos (w : Width) : 0 < psiz w := by
  cases w <;> decide

theorem psiz_le_csize (w : Width) : psiz w ≤ csize w := by
  cases w <;> decide

theorem packVal_length (w : Width) (bigendian : Bool) (v : ℤ) : (packVal w bigendian v).length = psiz w := by
  cases w <;> simp [packVal, packHalf, packWord, packJumbo, packBytes, psiz]

theorem wrap_mod {k w : ℕ} (hk : k ≤ w) (v : ℤ) : wrap w v % 2 ^ k = wrap k v := by
  have h1 := Int.emod_nonneg v (show (2 : ℤ) ^ w ≠ 0 by positivity)
  have h2 := Int.emod_nonneg v (show (2 : ℤ) ^ k ≠ 0 by positivity)
  rw [wrap,wrap,← Int.ofNat_inj]
  push_cast
  rw [Int.toNat_of_nonneg h1,Int.toNat_of_nonneg h2,Int.emod_emod_of_dvd v (pow_dvd_pow 2 hk)]

theorem joinBytes_packBytes (n val : ℕ) (tail : List ℕ) :
    joinBytes n true (packBytes n true val ++ tail) = val % 2 ^ (8 * n) := by
  rw [joinBytes,← orRange_bytes,← orRange_reverse n fun i => byteAt val i <<< (8 * i)]
  apply orRange_congr
  intro i hi
  have hget : (packBytes n true val ++ tail).getD i 0 = byteAt val (n - 1 - i) := by
    simp [packBytes, List.getD_eq_getElem?_getD, List.getElem?_append, hi]
  rw [hget,byteAt_mask,if_pos rfl]

theorem unpackVal_packVal (w : Width) (sgn : Bool) (v : ℤ) (tail : List ℕ) :
    unpackVal w sgn true (packVal w true v ++ tail) =
      if sgn = true ∧ w ≠ .jumbo then signFix (8 * csize w) (8 * psiz w) (wrap (8 * psiz w) v) else wrap (8 * psiz w) v := by
  cases w with
  | byte =>
    have hm : wrap 8 v &&& 0xFF = wrap 8 v := by
      rw [show 0xFF = 2 ^ 8 - 1 from rfl,Nat.and_two_pow_sub_one_of_lt_two_pow (wrap_lt 8 v)]
    cases sgn <;> simp [unpackVal, packVal, csize, psiz, hm]
  | half =>
    have hj := joinBytes_packBytes 2 (wrap 16 v) tail
    rw [wrap_mod le_rfl] at hj
    cases sgn <;> simp [unpackVal, packVal, packHalf, unpackHalf, csize, psiz, hj]
  | word =>
    have hj := joinBytes_packBytes 4 (wrap 64 v) tail
    rw [wrap_mod (by decide)] at hj
    cases sgn <;> simp [unpackVal, packVal, packWord, unpackWord, csize, psiz, hj]
  | jumbo =>
    have hj := joinBytes_packBytes 8 (wrap 64 v) tail
    rw [wrap_mod le_rfl] at hj
    cases sgn <;> simp [unpackVal, packVal, packJumbo, unpackJumbo, csize, psiz, hj]

/-- What C reads in an object of the type of an item. -/
def readVal (w : Width) (sgn : Bool) (x : ℕ) : ℤ := if sgn then (BitVec.ofNat (8 * csize w) x).toInt else x

theorem toInt_wrap {k : ℕ} (hk : 0 < k) {v : ℤ} (h0 : -2 ^ (k - 1) ≤ v) (h1 : v < 2 ^ (k - 1)) :
    (BitVec.ofNat k (wrap k v)).toInt = v := by
  have hdouble : (2 : ℤ) ^ k = 2 * 2 ^ (k - 1) := by
    rw [← pow_succ']
    congr 1
    omega
  have hcast : ((2 ^ k : ℕ) : ℤ) = 2 ^ k := by push_cast; rfl
  have hs : (BitVec.ofNat k (wrap k v)).toNat = wrap k v := Nat.mod_eq_of_lt (wrap_lt k v)
  rw [BitVec.toInt_eq_toNat_cond,hs]
  by_cases hv : 0 ≤ v
  · have hval := wrap_nonneg hv (show v < 2 ^ k by omega)
    rw [if_pos (by omega)]
    exact hval
  · have hval := wrap_neg (k := k) (show v < 0 by omega) (by omega)
    rw [if_neg (by omega)]
    omega

theorem signFix_lt (w k u : ℕ) : signFix w k u < 2 ^ w := BitVec.isLt _

theorem unpackVal_lt (w : Width) (sgn : Bool) (v : ℤ) (tail : List ℕ) :
    unpackVal w sgn true (packVal w true v ++ tail) < 2 ^ (8 * csize w) := by
  rw [unpackVal_packVal]
  split
  · exact signFix_lt _ _ _
  · have hle : 8 * psiz w ≤ 8 * csize w := Nat.mul_le_mul_left 8 (psiz_le_csize w)
    exact lt_of_lt_of_le (wrap_lt _ v) (Nat.pow_le_pow_right Nat.two_pos hle)

theorem readVal_unpackVal {it : Item} {v : ℤ} (hv : it.InRange v) (tail : List ℕ) :
    readVal it.width it.sgn (unpackVal it.width it.sgn true (packVal it.width true v ++ tail)) = v := by
  have hpos := psiz_pos it.width
  rw [unpackVal_packVal,readVal]
  rw [Item.InRange] at hv
  by_cases hs : it.sgn = true
  · rw [if_pos hs] at hv ⊢
    by_cases hw : it.width = .jumbo
    · rw [if_neg (by simp [hw])]
      rw [hw] at hv ⊢
      exact toInt_wrap (by decide) hv.1 hv.2
    · rw [if_pos ⟨hs,hw⟩]
      exact signFix_toInt (by omega) (Nat.mul_le_mul_left 8 (psiz_le_csize _)) hv.1 hv.2
  · rw [if_neg hs] at hv ⊢
    rw [if_neg (fun h => hs h.1)]
    exact wrap_nonneg hv.1 hv.2

/-! ## Memory -/

variable {little : Bool} {m : CMem} {p q n k x : ℕ}

theorem significance_lt (hi : k < n) : significance little n k < n := by
  rw [significance]
  split <;> omega

theorem significance_twice (hi : k < n) : significance little n (significance little n k) = k := by
  cases little
  · simp only [significance, Bool.false_eq_true, if_false]
    omega
  · rfl

theorem loadAt_storeAt (hx : x < 2 ^ (8 * n)) : loadAt little (storeAt little m p n x) p n = x := by
  have hbytes : loadAt little (storeAt little m p n x) p n = orRange n fun i => byteAt x i <<< (8 * i) := by
    rw [loadAt]
    apply orRange_congr
    intro i hi
    have hlt : significance little n i < n := significance_lt hi
    rw [storeAt,if_pos ⟨by omega,by omega⟩,Nat.add_sub_cancel_left,significance_twice hi]
  rw [hbytes,orRange_bytes,Nat.mod_eq_of_lt hx]

theorem loadAt_storeAt_other (h : p + k ≤ q ∨ q + n ≤ p) :
    loadAt little (storeAt little m p k x) q n = loadAt little m q n := by
  rw [loadAt,loadAt]
  apply orRange_congr
  intro i hi
  have hlt : significance little n i < n := significance_lt hi
  rw [storeAt,if_neg (by omega)]

theorem loadAt_lt (hm : ∀ a, m a < 256) : loadAt little m p n < 2 ^ (8 * n) := orRange_lt fun _ => hm _

theorem byteAt_loadAt (hm : ∀ a, m a < 256) {j : ℕ} (hj : j < n) :
    byteAt (loadAt little m p n) j = m (p + significance little n j) :=
  byteAt_orRange (fun _ => hm _) hj

/-! ## The elements of an item -/

/-- The numbers at a pointer to an object of the type of an item. -/
def readElems (little : Bool) (w : Width) (sgn : Bool) (m : CMem) (nreps : ℕ) : List ℤ :=
  (List.range nreps).map fun i => readVal w sgn (loadAt little m (i * csize w) (csize w))

theorem unpackElems_succ (little : Bool) (w : Width) (sgn bigendian : Bool) (p : List ℕ) (m : CMem) (nreps : ℕ) :
    unpackElems little w sgn bigendian p m (nreps + 1) =
      storeAt little (unpackElems little w sgn bigendian p m nreps) (nreps * psiz w) (csize w)
        (unpackVal w sgn bigendian (p.drop (nreps * psiz w))) := by
  rw [unpackElems,List.range_succ,List.foldl_append,List.foldl_cons,List.foldl_nil,unpackElems]

theorem drop_packed (w : Width) (vs : List ℤ) (tail : List ℕ) {i : ℕ} (hi : i < vs.length) :
    (vs.flatMap (packVal w true) ++ tail).drop (i * psiz w) =
      packVal w true vs[i] ++ ((vs.drop (i + 1)).flatMap (packVal w true) ++ tail) := by
  induction vs generalizing i with
  | nil => simp at hi
  | cons v vs ih =>
    cases i with
    | zero => simp
    | succ i =>
      have hlen := packVal_length w true v
      rw [List.flatMap_cons,List.append_assoc,Nat.succ_mul,Nat.add_comm,← List.drop_drop,
        List.drop_left' hlen,ih (Nat.lt_of_succ_lt_succ hi)]
      simp

theorem loadAt_unpackElems (little : Bool) (m : CMem) {w : Width} (sgn : Bool) {vs : List ℤ} (tail : List ℕ) {nreps : ℕ}
    (hn : nreps ≤ vs.length) (hw : psiz w = csize w ∨ nreps ≤ 1) {i : ℕ} (hi : i < nreps) :
    loadAt little (unpackElems little w sgn true (vs.flatMap (packVal w true) ++ tail) m nreps) (i * csize w) (csize w) =
      unpackVal w sgn true ((vs.flatMap (packVal w true) ++ tail).drop (i * psiz w)) := by
  induction nreps with
  | zero => omega
  | succ nreps ih =>
    rw [unpackElems_succ]
    rcases Nat.lt_succ_iff_lt_or_eq.1 hi with hi | rfl
    · have hw' : psiz w = csize w := by omega
      have hstep : (i + 1) * psiz w ≤ nreps * psiz w := Nat.mul_le_mul_right _ hi
      rw [Nat.succ_mul] at hstep
      rw [loadAt_storeAt_other (Or.inr (by rw [← hw']; exact hstep))]
      exact ih (by omega) (Or.inl hw') hi
    · have hpos : i * csize w = i * psiz w := by
        rcases hw with hw | hw
        · rw [hw]
        · obtain rfl : i = 0 := by omega
          simp
      rw [hpos]
      apply loadAt_storeAt
      rw [drop_packed w vs tail hn]
      exact unpackVal_lt _ _ _ _

theorem unpackElems_above (little : Bool) (w : Width) (sgn : Bool) (p : List ℕ) (m : CMem) (nreps : ℕ) {a : ℕ}
    (ha : nreps * psiz w + csize w ≤ a + psiz w) : unpackElems little w sgn true p m nreps a = m a := by
  induction nreps with
  | zero => rfl
  | succ nreps ih =>
    rw [Nat.succ_mul] at ha
    have hpos := psiz_pos w
    rw [unpackElems_succ,storeAt,if_neg (by omega)]
    exact ih (by omega)

theorem unpackElems_bytes (little : Bool) (w : Width) (sgn : Bool) (p : List ℕ) (nreps : ℕ) (hm : ∀ a, m a < 256) (a : ℕ) :
    unpackElems little w sgn true p m nreps a < 256 := by
  induction nreps with
  | zero => exact hm a
  | succ nreps ih =>
    rw [unpackElems_succ,storeAt]
    split
    · exact byteAt_lt _ _
    · exact ih

/-! ## Both loops -/

variable {fmt : List Char} {args : List PackArg} {es : List (Item × List ℤ)}

/-- The bytes of an item. -/
def encodeItem (e : Item × List ℤ) : List ℕ := e.2.flatMap (packVal e.1.width true)

def encode (es : List (Item × List ℤ)) : List ℕ := es.flatMap encodeItem

theorem encode_cons (e : Item × List ℤ) (es : List (Item × List ℤ)) : encode (e :: es) = encodeItem e ++ encode es := rfl

/-- A format that packs its arguments, item by item, with the numbers that go into each. -/
inductive Packed : List Char → List PackArg → List (Item × List ℤ) → Prop
  | nil (args : List PackArg) : Packed [] args []
  | item {c l : Char} {s s' : List Char} {count : ℕ} {w : Width} {sgn : Bool} {a : PackArg} {args : List PackArg}
      {vs : List ℤ} {es : List (Item × List ℤ)} (ho : isOrder c = false) (hc : parseCount 0 (c :: s) = some (count,l :: s'))
      (hl : letter l = some (w,sgn)) (hover : count ≤ overflow w) (ha : argVals count a = some vs) (h : Packed s' args es) :
      Packed (c :: s) (a :: args) ((⟨count,w,sgn⟩,vs) :: es)

theorem argVals_length {count : ℕ} {a : PackArg} {vs : List ℤ} (h : argVals count a = some vs) : vs.length = max 1 count := by
  cases a with
  | num v =>
    rw [argVals] at h
    split at h
    · rename_i hz
      cases h
      rw [hz]
      rfl
    · cases h
  | arr us =>
    rw [argVals] at h
    split at h
    · cases h
    · cases h
      rw [List.length_take]
      omega
  | raws rs => cases h

theorem parseCount_suffix {d n : ℕ} {s r : List Char} (h : parseCount d s = some (n,r)) : r <:+ s := by
  cases s with
  | nil =>
    cases h
    exact List.suffix_rfl
  | cons c s =>
    rw [parseCount] at h
    split at h
    · split at h
      · cases h
      · cases h
        exact List.dropWhile_suffix _
    · cases h
      exact List.suffix_rfl

theorem parseCount_one (s : List Char) : parseCount 1 s = (parseCount 0 s).map fun x => (max 1 x.1,x.2) := by
  cases s with
  | nil => rfl
  | cons c s =>
    rw [parseCount,parseCount]
    split
    · split
      · rfl
      · rename_i hz
        rw [Option.map_some,Nat.max_eq_right (Nat.one_le_iff_ne_zero.2 hz)]
    · rfl

theorem encodeItem_length (e : Item × List ℤ) : (encodeItem e).length = psiz e.1.width * e.2.length := by
  rw [encodeItem,List.length_flatMap]
  simp [packVal_length, Nat.mul_comm]

theorem packBody_order (blen k : ℕ) {x : PackSt} {c : Char} {s : List Char} (hx : x.fmt = c :: s) (hc : isOrder c = true) :
    loop (packBody blen) k x = none := by
  induction k generalizing x with
  | zero => rfl
  | succ k ih =>
    have hb : packBody blen x = some (.again { x with bigendian := c = 'E' }) := by
      rw [packBody,hx]
      simp only [hc, if_true]
    rw [loop_again hb]
    exact ih hx

theorem pack_order {c : Char} (hc : isOrder c = true) (s : List Char) (args : List PackArg) {blen : ℕ} (hb : blen ≠ 0) (k : ℕ) :
    pack k blen (c :: s) args = none := by
  rw [pack,if_neg hb]
  exact packBody_order _ k rfl hc

/-- A character of a format that packs and unpacks. -/
def isFormat (c : Char) : Bool := c.isDigit || isOrder c || (letter c).isSome

theorem packBody_cases {blen : ℕ} {x : PackSt} {c : Char} {s : List Char} (hx : x.fmt = c :: s) (hc : isOrder c = false)
    (hf : ∀ c ∈ x.fmt, isFormat c = true) {t : Turn PackSt (ℕ × List ℕ)} (ht : packBody blen x = some t) :
    t = .leave (0,x.out) ∨ ∃ count l s' w sgn a vs, parseCount 0 (c :: s) = some (count,l :: s') ∧ letter l = some (w,sgn) ∧
      count ≤ overflow w ∧ psiz w * max 1 count ≤ x.left ∧ x.args.head? = some a ∧ argVals count a = some vs ∧
      t = .again (x.write s' (vs.flatMap (packVal w x.bigendian))) := by
  rw [packBody,hx] at ht
  simp only [hc, Bool.false_eq_true, if_false] at ht
  split at ht
  · cases ht
    exact Or.inl rfl
  · cases ht
    exact Or.inl rfl
  · rename_i count l s' hp
    split at ht
    · rename_i w sgn hl
      split at ht
      · cases ht
        exact Or.inl rfl
      · rename_i hroom
        rw [Option.bind_eq_bind,Option.bind_eq_some_iff] at ht
        obtain ⟨a,ha,ht⟩ := ht
        rw [Option.bind_eq_bind,Option.bind_eq_some_iff] at ht
        obtain ⟨vs,hvs,ht⟩ := ht
        cases ht
        exact Or.inr ⟨count,l,s',w,sgn,a,vs,hp,hl,by omega,by omega,ha,hvs,rfl⟩
    · rename_i hl
      split at ht
      · rename_i hraw
        have hmem := hf l (by rw [hx]; exact (parseCount_suffix hp).subset (List.mem_cons_self ..))
        rw [hraw] at hmem
        exact absurd hmem (by decide)
      · cases ht
        exact Or.inl rfl

theorem pack_run {blen k n : ℕ} {x : PackSt} {out : List ℕ} (hr : loop (packBody blen) k x = some (n,out)) (hn : 0 < n)
    (hbig : x.bigendian = true) (hf : ∀ c ∈ x.fmt, isFormat c = true) :
    ∃ es, Packed x.fmt x.args es ∧ (encode es).length ≤ x.left ∧ out = x.out ++ encode es ∧
      n = blen - (x.left - (encode es).length) := by
  induction k generalizing x with
  | zero => simp at hr
  | succ k ih =>
    cases hx : x.fmt with
    | nil =>
      have hb : packBody blen x = some (.leave (blen - x.left,x.out)) := by rw [packBody,hx]
      rw [loop_leave hb] at hr
      cases hr
      exact ⟨[],Packed.nil _,Nat.zero_le _,by simp [encode],rfl⟩
    | cons c s =>
      cases hc : isOrder c with
      | true =>
        rw [packBody_order blen (k + 1) hx hc] at hr
        cases hr
      | false =>
        cases hb : packBody blen x with
        | none => simp [loop, hb] at hr
        | some t =>
          rcases packBody_cases hx hc hf hb with rfl | ⟨count,l,s',w,sgn,a,vs,hp,hl,hover,hroom,ha,hvs,rfl⟩
          · rw [loop_leave hb] at hr
            cases hr
            omega
          · rw [loop_again hb] at hr
            have hlen : (encodeItem (⟨count,w,sgn⟩,vs)).length = psiz w * max 1 count := by
              rw [encodeItem_length,argVals_length hvs]
            have hsuf := parseCount_suffix hp
            obtain ⟨es,h1,h2,h3,h4⟩ := ih hr hbig fun c hc => by
              rw [hx] at hf
              exact hf c (hsuf.subset (List.mem_cons_of_mem _ hc))
            obtain ⟨args,hargs⟩ : ∃ args, x.args = a :: args := List.head?_eq_some_iff.1 ha
            have hwrite : vs.flatMap (packVal w x.bigendian) = encodeItem (⟨count,w,sgn⟩,vs) := by rw [hbig,encodeItem]
            rw [PackSt.write,hwrite,hlen] at h2 h3 h4
            refine ⟨(⟨count,w,sgn⟩,vs) :: es,?_,?_,?_,?_⟩
            · rw [hargs]
              refine Packed.item hc hp hl hover hvs ?_
              rwa [PackSt.write,hargs] at h1
            · rw [encode_cons,List.length_append,hlen]
              exact Nat.add_le_of_le_sub' hroom h2
            · rw [h3,encode_cons,List.append_assoc]
            · rw [h4,encode_cons,List.length_append,hlen,Nat.sub_sub]

theorem unpackElems_tail (little : Bool) (w : Width) (sgn : Bool) (vs : List ℤ) (tail : List ℕ) (m : CMem) {nreps : ℕ}
    (hn : nreps ≤ vs.length) :
    unpackElems little w sgn true (vs.flatMap (packVal w true) ++ tail) m nreps =
      unpackElems little w sgn true (vs.flatMap (packVal w true)) m nreps := by
  induction nreps with
  | zero => rfl
  | succ nreps ih =>
    have hnil := drop_packed w vs [] hn
    rw [List.append_nil] at hnil
    rw [unpackElems_succ,unpackElems_succ,ih (by omega),drop_packed w vs tail hn,hnil,unpackVal_packVal,unpackVal_packVal]

/-- The memory of a destination after its item. -/
def fillItem (little : Bool) (e : Item × List ℤ) (m : CMem) : CMem :=
  unpackElems little e.1.width e.1.sgn true (encodeItem e) m e.1.reps

theorem unpack_run (little : Bool) {blen : ℕ} (hp : Packed fmt args es) (pulled : ℕ)
    (hlen : pulled + (encode es).length ≤ blen) {dests : List CMem} (done : List CMem) (hd : dests.length = es.length) :
    loop (unpackBody little blen) (es.length + 1) ⟨fmt,true,pulled,encode es,dests,done⟩ =
      some (pulled + (encode es).length,done ++ List.zipWith (fillItem little) es dests) := by
  induction hp generalizing pulled dests done with
  | nil args =>
    obtain rfl := List.length_eq_zero_iff.1 hd
    rfl
  | @item c l s s' count w sgn a args vs es ho hc hl hover ha h ih =>
    cases dests with
    | nil => cases hd
    | cons m dests =>
      have hvs := argVals_length ha
      have hitem : (encodeItem (⟨count,w,sgn⟩,vs)).length = psiz w * max 1 count := by rw [encodeItem_length,hvs]
      rw [encode_cons,List.length_append,hitem] at hlen
      have hover' : max 1 count ≤ overflow w := by
        have : 1 ≤ overflow w := by cases w <;> decide
        omega
      have hb : unpackBody little blen ⟨c :: s,true,pulled,encode ((⟨count,w,sgn⟩,vs) :: es),m :: dests,done⟩ =
          some (.again ⟨s',true,pulled + psiz w * max 1 count,encode es,dests,
            done ++ [fillItem little (⟨count,w,sgn⟩,vs) m]⟩) := by
        rw [unpackBody]
        simp only [ho, Bool.false_eq_true, if_false, parseCount_one, hc, Option.map_some, hl]
        rw [if_neg (by omega)]
        have hdrop : (encode ((⟨count,w,sgn⟩,vs) :: es)).drop (max 1 count * psiz w) = encode es := by
          rw [encode_cons,Nat.mul_comm]
          exact List.drop_left' hitem
        have hfill : unpackElems little w sgn true (encode ((⟨count,w,sgn⟩,vs) :: es)) m (max 1 count) =
            fillItem little (⟨count,w,sgn⟩,vs) m := by
          rw [encode_cons,encodeItem,unpackElems_tail little w sgn vs _ m hvs.ge]
          rfl
        rw [hdrop,← hfill]
        rfl
      rw [List.length_cons,loop_again hb,ih _ (by omega) _ (Nat.succ.inj hd),encode_cons,List.length_append,hitem]
      simp [Nat.add_assoc]

/-! ## The items of a format that packed -/

theorem Packed.items_eq (hp : Packed fmt args es) {k : ℕ} (hk : fmt.length ≤ k) : itemsUpTo k fmt = es.map Prod.fst := by
  induction hp generalizing k with
  | nil args => cases k <;> rfl
  | @item c l s s' count w sgn a args vs es ho hc hl hover ha h ih =>
    obtain ⟨k,rfl⟩ : ∃ k', k = k' + 1 := ⟨k - 1,by rw [List.length_cons] at hk; omega⟩
    have hsuf := (parseCount_suffix hc).length_le
    rw [List.length_cons,List.length_cons] at hsuf
    rw [List.length_cons] at hk
    simp only [itemsUpTo, ho, Bool.false_eq_true, if_false, hc, hl]
    rw [ih (by omega),List.map_cons]

theorem parseCount_mem {d n : ℕ} {s r : List Char} (h : parseCount d s = some (n,r)) {c : Char} (hc : c ∈ s) :
    c.isDigit = true ∨ c ∈ r := by
  cases s with
  | nil => cases hc
  | cons c' s =>
    rw [parseCount] at h
    split at h
    · split at h
      · cases h
      · cases h
        rw [← List.takeWhile_append_dropWhile (p := Char.isDigit) (l := c' :: s),List.mem_append] at hc
        exact hc.imp (fun hc => List.mem_takeWhile_imp hc) id
    · cases h
      exact Or.inr hc

theorem Packed.no_order (hp : Packed fmt args es) : ∀ c ∈ fmt, isOrder c = false := by
  induction hp with
  | nil args => simp
  | @item c l s s' count w sgn a args vs es ho hc hl hover ha h ih =>
    intro x hx
    rcases parseCount_mem hc hx with hd | hx
    · cases hor : isOrder x with
      | false => rfl
      | true =>
        rw [isOrder,Bool.or_eq_true,decide_eq_true_eq,decide_eq_true_eq] at hor
        rcases hor with rfl | rfl <;> exact absurd hd (by decide)
    · rcases List.mem_cons.1 hx with rfl | hx
      · cases hor : isOrder x with
        | false => rfl
        | true =>
          rw [isOrder,Bool.or_eq_true,decide_eq_true_eq,decide_eq_true_eq] at hor
          rcases hor with rfl | rfl <;> cases hl
      · exact ih x hx

/-- What C reads at a destination of an item. -/
def readItem (little : Bool) (it : Item) (m : CMem) : List ℤ := readElems little it.width it.sgn m it.reps

theorem readItem_fillItem {e : Item × List ℤ} (hlen : e.2.length = e.1.reps) (hv : ∀ v ∈ e.2, e.1.InRange v)
    (hw : e.1.width = .word → e.1.count < 2) (little : Bool) (m : CMem) : readItem little e.1 (fillItem little e m) = e.2 := by
  have hstride : psiz e.1.width = csize e.1.width ∨ e.1.reps ≤ 1 := by
    cases hwd : e.1.width with
    | word => exact Or.inr (by have := hw hwd; rw [Item.reps]; omega)
    | _ => exact Or.inl rfl
  apply List.ext_getElem
  · rw [readItem,readElems,List.length_map,List.length_range,hlen]
  · intro i hi hi'
    have hir : i < e.1.reps := hlen ▸ hi'
    have hload := loadAt_unpackElems little m e.1.sgn [] hlen.ge hstride hir
    rw [drop_packed _ _ _ hi',List.append_nil] at hload
    simp only [readItem, readElems, List.getElem_map, List.getElem_range, fillItem, encodeItem]
    rw [hload]
    exact readVal_unpackVal (hv _ (List.getElem_mem hi')) _

theorem readVal_inj {w : Width} {sgn : Bool} {x y : ℕ} (hx : x < 2 ^ (8 * csize w)) (hy : y < 2 ^ (8 * csize w))
    (h : readVal w sgn x = readVal w sgn y) : x = y := by
  cases sgn with
  | false => exact Int.ofNat_inj.1 h
  | true =>
    have hbv : BitVec.ofNat (8 * csize w) x = BitVec.ofNat (8 * csize w) y := BitVec.eq_of_toInt_eq h
    have htn := congrArg BitVec.toNat hbv
    rwa [BitVec.toNat_ofNat,BitVec.toNat_ofNat,Nat.mod_eq_of_lt hx,Nat.mod_eq_of_lt hy] at htn

theorem readItem_overlap {e : Item × List ℤ} (hw : e.1.width = .word) (hc : 2 ≤ e.1.count) (little : Bool) :
    readItem little e.1 (fillItem little e fun _ => 0) ≠ readItem little e.1 (fillItem little e fun _ => 1) := by
  obtain ⟨r,hr⟩ : ∃ r, e.1.reps = r + 2 := ⟨e.1.reps - 2,by rw [Item.reps]; omega⟩
  have hbytes : ∀ b < 2, ∀ a, fillItem little e (fun _ => b) a < 256 :=
    fun b hb => unpackElems_bytes little _ _ _ _ fun _ => by omega
  have hlast : ∀ b < 2, byteAt (loadAt little (fillItem little e fun _ => b) ((r + 1) * 8) 8) (significance little 8 7) = b := by
    intro b hb
    rw [byteAt_loadAt (hbytes b hb) (significance_lt (by decide)),significance_twice (by decide)]
    apply unpackElems_above
    rw [hr,hw]
    simp only [psiz, csize]
    omega
  intro heq
  have hget := congrArg (fun vs : List ℤ => vs[r + 1]?) heq
  simp only [readItem, readElems, hr, hw, List.getElem?_map] at hget
  rw [List.getElem?_range (by omega),Option.map_some,Option.map_some,Option.some_inj] at hget
  have hload := readVal_inj (loadAt_lt (hbytes 0 (by decide))) (loadAt_lt (hbytes 1 (by decide))) hget
  have h0 := hlast 0 (by decide)
  rw [show 8 = csize .word from rfl,hload] at h0
  have h1 := hlast 1 (by decide)
  rw [show 8 = csize .word from rfl,h0] at h1
  cases h1

/-- What a destination reads as, against the argument it was packed from. -/
def ReadsBack (little : Bool) (e : Item × PackArg) (m : CMem) : Prop :=
  argVals e.1.count e.2 = some (readItem little e.1 m)

theorem Packed.readsBack_iff (hp : Packed fmt args es) (hlen : args.length = es.length) (little : Bool) {dests : List CMem} :
    List.Forall₂ (ReadsBack little) ((es.map Prod.fst).zip args) (List.zipWith (fillItem little) es dests) ∧
        dests.length = es.length ↔
      List.Forall₂ (fun e m => readItem little e.1 (fillItem little e m) = e.2) es dests := by
  induction hp generalizing dests with
  | nil args =>
    obtain rfl := List.length_eq_zero_iff.1 hlen
    cases dests <;> simp
  | @item c l s s' count w sgn a args vs es ho hc hl hover ha h ih =>
    cases dests with
    | nil => simp
    | cons m dests =>
      simp only [List.map_cons, List.zip_cons_cons, List.zipWith_cons_cons, List.forall₂_cons, List.length_cons,
        Nat.add_right_cancel_iff]
      rw [← ih (Nat.succ.inj hlen),ReadsBack,ha,Option.some_inj,eq_comm,and_assoc]

/-- The numbers of an argument are in the range of its item. -/
def Fits (it : Item) (a : PackArg) : Prop := ∀ vs, argVals it.count a = some vs → ∀ v ∈ vs, it.InRange v

theorem Packed.fits (hp : Packed fmt args es) (hr : List.Forall₂ Fits (es.map Prod.fst) args) :
    ∀ e ∈ es, e.2.length = e.1.reps ∧ ∀ v ∈ e.2, e.1.InRange v := by
  induction hp with
  | nil args => simp
  | @item c l s s' count w sgn a args vs es ho hc hl hover ha h ih =>
    rw [List.map_cons,List.forall₂_cons] at hr
    intro e he
    rcases List.mem_cons.1 he with rfl | he
    · exact ⟨argVals_length ha,hr.1 vs ha⟩
    · exact ih hr.2 e he

theorem forall₂_replicate {α β : Type*} {R : α → β → Prop} {l : List α} {b : β} (h : List.Forall₂ R l (List.replicate l.length b)) :
    ∀ a ∈ l, R a b := by
  induction l with
  | nil => simp
  | cons a l ih =>
    rw [List.length_cons,List.replicate_succ,List.forall₂_cons] at h
    exact List.forall_mem_cons.2 ⟨h.1,ih h.2⟩

theorem forall₂_of_mem {α β : Type*} {R : α → β → Prop} {l : List α} {l' : List β} (hlen : l'.length = l.length)
    (h : ∀ a ∈ l, ∀ b, R a b) : List.Forall₂ R l l' := by
  induction l generalizing l' with
  | nil =>
    obtain rfl := List.length_eq_zero_iff.1 hlen
    exact List.Forall₂.nil
  | cons a l ih =>
    cases l' with
    | nil => cases hlen
    | cons b l' =>
      exact List.Forall₂.cons (h a List.mem_cons_self b)
        (ih (Nat.succ.inj hlen) fun x hx => h x (List.mem_cons_of_mem _ hx))

theorem unpack_grows (little : Bool) (buf : List ℕ) (blen : ℕ) (fmt : List Char) (dests : List CMem) (k k' : ℕ) (hk : k ≤ k') :
    Grows (unpack little k buf blen fmt dests) (unpack little k' buf blen fmt dests) :=
  Grows.ite (Grows.refl _) (Grows.ite (Grows.refl _) (loop_grows hk _))

/-- What `pack` wrote, `unpack` reads back into any memory, unless words come in an array of
two or more. -/
theorem pack_unpack {fuel blen n : ℕ} {fmt : List Char} {args : List PackArg} {out : List ℕ}
    (hfmt : ∀ c ∈ fmt, isFormat c = true) (hr : List.Forall₂ Fits (items fmt) args)
    (hp : pack fuel blen fmt args = some (n,out)) (hn : 0 < n) :
    (∀ c ∈ fmt, isOrder c = false) ∧ out.length = n ∧
    ((∀ little dests, dests.length = (items fmt).length → ∃ k done, unpack little k out n fmt dests = some (n,done) ∧
        List.Forall₂ (ReadsBack little) ((items fmt).zip args) done) ↔
      ∀ it ∈ items fmt, it.width = .word → it.count < 2) := by
  rw [pack] at hp
  split at hp
  · cases hp
    cases hn
  · obtain ⟨es,hes,hleft,hout,hlen⟩ := pack_run hp hn rfl hfmt
    have hitems : items fmt = es.map Prod.fst := hes.items_eq le_rfl
    rw [List.nil_append] at hout
    dsimp only at hleft hlen
    have hout' : out.length = n := by rw [hout]; omega
    have hmax : n ≤ psizMax := by omega
    rw [hitems] at hr ⊢
    have hargs : args.length = es.length := by rw [← hr.length_eq,List.length_map]
    have hrun : ∀ little (dests : List CMem), dests.length = es.length →
        unpack little (es.length + 1) out n fmt dests = some (n,List.zipWith (fillItem little) es dests) := by
      intro little dests hd
      have hle : 0 + (encode es).length ≤ n := by rw [← hout]; omega
      have h := unpack_run little hes 0 hle [] hd
      rw [List.nil_append,← hout,hout',Nat.zero_add] at h
      rw [unpack,if_neg (by omega),if_neg (by omega)]
      exact h
    refine ⟨hes.no_order,hout',fun h => ?_,fun h little dests hd => ?_⟩
    · -- two memories that differ in the byte that is never written
      intro it hit hw
      by_contra hc
      obtain ⟨e,he,rfl⟩ := List.mem_map.1 hit
      have hread : ∀ b, readItem true e.1 (fillItem true e fun _ => b) = e.2 := by
        intro b
        have hd : (List.replicate es.length fun _ => b : List CMem).length = es.length := List.length_replicate
        obtain ⟨k,done,hk,hback⟩ := h true _ (by rw [hd,List.length_map])
        have hsame := hrun true _ hd
        have hdone := (Prod.mk.inj (Grows.agree (unpack_grows true out n fmt _) hk hsame)).2
        rw [hdone] at hback
        exact forall₂_replicate ((hes.readsBack_iff hargs true).1 ⟨hback,hd⟩) e he
      exact readItem_overlap hw (not_lt.1 hc) true ((hread 0).trans (hread 1).symm)
    · rw [List.length_map] at hd
      have hin := hes.fits hr
      refine ⟨_,_,hrun little dests hd,((hes.readsBack_iff hargs little).2 ?_).1⟩
      refine forall₂_of_mem hd fun e he m => ?_
      exact readItem_fillItem (hin e he).1 (hin e he).2 (h e.1 (List.mem_map_of_mem he)) little m

theorem pack_unpack_sample :
    (∀ little dests, dests.length = (items "W2h".toList).length → ∃ k done,
        unpack little k [255, 255, 255, 254, 1, 2, 3, 4] 8 "W2h".toList dests = some (8,done) ∧
        List.Forall₂ (ReadsBack little) ((items "W2h".toList).zip [.num (-2),.arr [258,772]]) done) ↔
      ∀ it ∈ items "W2h".toList, it.width = .word → it.count < 2 := by
  have hp : pack 3 20 "W2h".toList [.num (-2),.arr [258,772]] = some (8,[255, 255, 255, 254, 1, 2, 3, 4]) := rfl
  refine (pack_unpack ?_ ?_ hp (Nat.succ_pos 7)).2.2
  · have hf : "W2h".toList = ['W','2','h'] := rfl
    rw [hf,List.forall_mem_cons,List.forall_mem_cons,List.forall_mem_singleton]
    exact ⟨rfl,rfl,rfl⟩
  · have hi : items "W2h".toList = [⟨0,.word,true⟩,⟨2,.half,false⟩] := rfl
    rw [hi]
    refine List.Forall₂.cons ?_ (List.Forall₂.cons ?_ List.Forall₂.nil)
    · intro vs hvs
      cases hvs
      simp [Item.InRange, psiz]
    · intro vs hvs
      cases hvs
      simp [Item.InRange, psiz]

/-- The second of two words is read back with the old upper half of its destination. -/
theorem unpack_overlap :
    pack 3 8 "2w".toList [.arr [1,2]] = some (8,[0,0,0,1,0,0,0,2]) ∧
    (unpack true 3 [0,0,0,1,0,0,0,2] 8 "2w".toList [fun _ => 1]).map
        (fun r => (r.1,r.2.map (readItem true ⟨2,.word,false⟩))) = some (8,[[8589934593,72340172821233664]]) := by
  constructor <;> rfl

end Catlib.Pack
