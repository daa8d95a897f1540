import Catlib.Hash.Chain
import Catlib.Logic.Loop
import Mathlib.Data.Set.Insert

/-! # The chained hash table of hash.h

The table is modelled where the processor divides. Hash values are natural numbers;
nothing depends on their width.
-/
namespace Catlib.Hash
open Linked

variable {κ : Type}

/-- `struct htab` without its bucket array, which the heap holds; the context of the hash
function is part of the function. -/
structure Htab (κ : Type) where
  nbkts : ℕ
  po2mask : ℕ
  cmp : κ → κ → ℤ
  hash : κ → ℕ

def htInit (h : HtHeap κ) (nbkts : ℕ) (cmp : κ → κ → ℤ) (hash : κ → ℕ) : Option (Htab κ × HtHeap κ) :=
  if nbkts = 0 then none
  else
    let h := { h with bkts := fun i => if i < nbkts then 0 else h.bkts i }
    let po2mask := if nbkts &&& (nbkts - 1) = 0 then nbkts - 1 else 0
    some (⟨nbkts,po2mask,cmp,hash⟩,h)

def htNinit (h : HtHeap κ) (node : Addr) (key : κ) : HtHeap κ :=
  h.put node ⟨0,none,key⟩

/-- The bucket a hash value selects. -/
def Htab.index (t : Htab κ) (hash : ℕ) : ℕ :=
  if t.po2mask ≠ 0 then hash &&& t.po2mask else hash % t.nbkts

def lkupBody (t : Htab κ) (h : HtHeap κ) (key : κ) (node : Addr) : Option (Turn Addr Addr) :=
  if node = 0 then some (.leave 0)
  else if t.cmp (h.node node).key key = 0 then some (.leave node)
  else some (.again (h.node node).next)

/-- `ht_lkup`: the node with the key or null, and the hash of the key. -/
def htLkup (t : Htab κ) (h : HtHeap κ) (key : κ) (fuel : ℕ) : Option (Addr × ℕ) :=
  let hv := t.hash key
  if t.nbkts ≤ t.index hv then none
  else (loop (lkupBody t h key) fuel (h.bkts (t.index hv))).map (fun n => (n,hv))

def htIns (t : Htab κ) (h : HtHeap κ) (node : Addr) (hash : ℕ) : Option (HtHeap κ) :=
  if node = 0 ∨ t.nbkts ≤ t.index hash then none
  else some (link h (.bkt (t.index hash)) node)

def htRem (h : HtHeap κ) (node : Addr) : Option (HtHeap κ) :=
  if node = 0 then none else some (unlink h node)

theorem htLkup_grows (t : Htab κ) (h : HtHeap κ) (key : κ) {k m : ℕ} (hkm : k ≤ m) :
    Grows (htLkup t h key k) (htLkup t h key m) := by
  simp only [htLkup, Option.map_eq_bind]
  exact Grows.ite (.refl _) (Grows.bind (loop_grows hkm _) (fun _ => .refl _))

/-! ## Tables -/

/-- A table whose mask, when it has one, stays below the number of buckets. -/
structure Htab.Ok (t : Htab κ) : Prop where
  pos : 0 < t.nbkts
  mask : t.po2mask < t.nbkts

theorem Htab.Ok.index_lt {t : Htab κ} (ht : t.Ok) (hash : ℕ) : t.index hash < t.nbkts := by
  unfold Htab.index
  split
  · exact lt_of_le_of_lt Nat.and_le_right ht.mask
  · exact Nat.mod_lt _ ht.pos

variable {t : Htab κ} {h : HtHeap κ} {S : Set Addr} {B : ℕ → List Addr} {a n : Addr}

/-- The nodes `S` sit in the chains `B`, each in the bucket its key hashes to. -/
structure Chained (t : Htab κ) (h : HtHeap κ) (B : ℕ → List Addr) (S : Set Addr) : Prop where
  chain : ∀ i < t.nbkts, Chain h (.bkt i) (B i)
  nodup : ∀ i < t.nbkts, (B i).Nodup
  bucket : ∀ a ∈ S, a ∈ B (t.index (t.hash (h.node a).key))
  mem : ∀ i < t.nbkts, ∀ a ∈ B i, a ∈ S ∧ t.index (t.hash (h.node a).key) = i

/-- The hash table holds the nodes `S`, no two of which have equal keys. -/
def IsTable (t : Htab κ) (h : HtHeap κ) (S : Set Addr) : Prop :=
  t.Ok ∧ (∃ B, Chained t h B S) ∧ ∀ a ∈ S, ∀ b ∈ S, t.cmp (h.node a).key (h.node b).key = 0 → a = b

theorem Chained.apart (hb : Chained t h B S) {i j : ℕ} (hi : i < t.nbkts) (hj : j < t.nbkts) (hij : i ≠ j)
    (ha : a ∈ B i) : a ∉ B j :=
  fun haj => hij ((hb.mem i hi a ha).2.symm.trans (hb.mem j hj a haj).2)

theorem Chained.ne_zero (ht : t.Ok) (hb : Chained t h B S) (ha : a ∈ S) : a ≠ 0 := by
  rintro rfl
  exact (hb.chain _ (ht.index_lt _)).ne_zero (hb.bucket 0 ha)

theorem isTable_init {nbkts : ℕ} {cmp : κ → κ → ℤ} {hash : κ → ℕ} {h' : HtHeap κ}
    (hi : htInit h nbkts cmp hash = some (t,h')) : t.cmp = cmp ∧ t.hash = hash ∧ IsTable t h' ∅ := by
  simp only [htInit, Option.ite_none_left_eq_some, Option.some.injEq, Prod.mk.injEq] at hi
  obtain ⟨hn,rfl,rfl⟩ := hi
  refine ⟨rfl,rfl,⟨Nat.pos_of_ne_zero hn,?_⟩,⟨fun _ => [],?_,?_,?_,?_⟩,?_⟩
  · dsimp only
    split <;> omega
  · intro i hi
    simp [Chain, HtHeap.get, show i < nbkts from hi]
  all_goals simp

theorem lkup_chain (t : Htab κ) (key : κ) {s : Slot} {xs : List Addr} {fuel : ℕ} (hc : Chain h s xs) (hf : xs.length < fuel) :
    ∃ a, loop (lkupBody t h key) fuel (h.get s) = some a ∧
      (a = 0 ∧ (∀ x ∈ xs, t.cmp (h.node x).key key ≠ 0) ∨ a ∈ xs ∧ t.cmp (h.node a).key key = 0) := by
  induction xs generalizing s fuel with
  | nil =>
    obtain ⟨m,rfl⟩ : ∃ m, fuel = m + 1 := ⟨fuel - 1,by simp at hf; omega⟩
    rw [show h.get s = 0 from hc]
    exact ⟨0,loop_leave (by simp [lkupBody]),Or.inl ⟨rfl,by simp⟩⟩
  | cons b bs ih =>
    obtain ⟨h1,h2,-,h4⟩ := hc
    obtain ⟨m,rfl⟩ : ∃ m, fuel = m + 1 := ⟨fuel - 1,by omega⟩
    rw [h1]
    by_cases hk : t.cmp (h.node b).key key = 0
    · exact ⟨b,loop_leave (by simp [lkupBody, h2, hk]),Or.inr ⟨by simp,hk⟩⟩
    · obtain ⟨a,ha,hr⟩ := ih h4 (show bs.length < m by simpa using hf)
      refine ⟨a,?_,?_⟩
      · rw [loop_again (t := h.get (.next b)) (by simp [lkupBody, h2, hk, HtHeap.get]),ha]
      · rcases hr with ⟨rfl,hr⟩ | ⟨hm,hr⟩
        · exact Or.inl ⟨rfl,by simpa [hk] using hr⟩
        · exact Or.inr ⟨List.mem_cons_of_mem _ hm,hr⟩

theorem htLkup_spec (ht : IsTable t h S) (hh : ∀ a b, t.cmp a b = 0 → t.hash a = t.hash b) (key : κ) :
    ∃ fuel a, htLkup t h key fuel = some (a,t.hash key) ∧
      (a = 0 ∧ (∀ x ∈ S, t.cmp (h.node x).key key ≠ 0) ∨ a ∈ S ∧ t.cmp (h.node a).key key = 0) := by
  obtain ⟨hok,⟨B,hb⟩,-⟩ := ht
  have hi := hok.index_lt (t.hash key)
  obtain ⟨a,ha,hr⟩ := lkup_chain t key (hb.chain _ hi) (Nat.lt_succ_self _)
  refine ⟨_,a,by rw [htLkup,if_neg (by omega)]; exact congrArg _ ha,?_⟩
  rcases hr with ⟨rfl,hr⟩ | ⟨hm,hr⟩
  · refine Or.inl ⟨rfl,fun x hx h0 => hr x ?_ h0⟩
    rw [← hh _ _ h0]
    exact hb.bucket x hx
  · exact Or.inr ⟨(hb.mem _ hi a hm).1,hr⟩

theorem htIns_spec (ht : IsTable t h S) (hc : ∀ a b, t.cmp a b = 0 → t.cmp b a = 0) (hn0 : n ≠ 0) (hn : n ∉ S)
    (habs : ∀ x ∈ S, t.cmp (h.node x).key (h.node n).key ≠ 0) :
    ∃ h', htIns t h n (t.hash (h.node n).key) = some h' ∧ h'.keys = h.keys ∧ IsTable t h' (insert n S) := by
  obtain ⟨hok,⟨B,hb⟩,hinj⟩ := ht
  have hi := hok.index_lt (t.hash (h.node n).key)
  generalize hie : t.index (t.hash (h.node n).key) = i at hi
  have hnB : ∀ j < t.nbkts, n ∉ B j := fun j hj hm => hn (hb.mem j hj n hm).1
  have hk : ∀ x, ((link h (.bkt i) n).node x).key = (h.node x).key :=
    fun x => congrFun (link_keys h (.bkt i) n) x
  refine ⟨link h (.bkt i) n,?_,link_keys h _ n,hok,⟨fun j => if j = i then n :: B i else B j,?_,?_,?_,?_⟩,?_⟩
  · rw [htIns,hie,if_neg (by simp [hn0, hi])]
  · intro j hj
    by_cases hji : j = i
    · subst hji
      simpa using (hb.chain j hj).link (hb.nodup j hj) (hnB j hj) hn0
    · rw [if_neg hji]
      refine (hb.chain j hj).link_other hji (hnB j hj) ?_
      have hci := hb.chain i hi
      have hcj := (hb.chain j hj).ne_zero
      cases hBi : B i with
      | nil => rw [hBi] at hci; rwa [show h.get (.bkt i) = 0 from hci]
      | cons c cs =>
        rw [hBi] at hci
        rw [hci.1]
        exact hb.apart hi hj (Ne.symm hji) (by simp [hBi])
  · intro j hj
    split
    · exact List.nodup_cons.mpr ⟨hnB i hi,hb.nodup i hi⟩
    · exact hb.nodup j hj
  · rintro x (rfl | hx)
    · simp [hk, hie]
    · have hm := hb.bucket x hx
      rw [hk]
      split
      · rename_i he
        exact List.mem_cons_of_mem _ (he ▸ hm)
      · exact hm
  · intro j hj x hx
    rw [hk]
    split at hx
    · rename_i hji
      subst hji
      rcases List.mem_cons.mp hx with rfl | hx
      · exact ⟨Set.mem_insert _ _,hie⟩
      · exact ⟨Set.mem_insert_of_mem _ (hb.mem j hj x hx).1,(hb.mem j hj x hx).2⟩
    · exact ⟨Set.mem_insert_of_mem _ (hb.mem j hj x hx).1,(hb.mem j hj x hx).2⟩
  · rintro x (rfl | hx) y (rfl | hy) he
    · rfl
    · rw [hk,hk] at he
      exact absurd (hc _ _ he) (habs y hy)
    · rw [hk,hk] at he
      exact absurd he (habs x hx)
    · rw [hk,hk] at he
      exact hinj x hx y hy he

theorem htRem_spec (ht : IsTable t h S) (ha : a ∈ S) :
    ∃ h', htRem h a = some h' ∧ h'.keys = h.keys ∧ IsTable t h' (S \ {a}) := by
  obtain ⟨hok,⟨B,hb⟩,hinj⟩ := ht
  have hi := hok.index_lt (t.hash (h.node a).key)
  have hm := hb.bucket a ha
  generalize hie : t.index (t.hash (h.node a).key) = i at hi hm
  obtain ⟨xs,ys,hxy⟩ := List.append_of_mem hm
  have hci := hb.chain i hi
  have hdi := hb.nodup i hi
  rw [hxy] at hci hdi
  obtain ⟨hc',hp⟩ := hci.unlink hdi
  have hk : ∀ x, ((unlink h a).node x).key = (h.node x).key := fun x => congrFun (unlink_keys h a) x
  have hmem : ∀ x, x ∈ xs ++ ys ↔ x ∈ B i ∧ x ≠ a := by
    intro x
    rw [hxy]
    simp only [List.nodup_append, List.nodup_cons, List.mem_append, List.mem_cons] at hdi ⊢
    grind
  refine ⟨unlink h a,by rw [htRem,if_neg (hb.ne_zero hok ha)],unlink_keys h a,hok,
    ⟨fun j => if j = i then xs ++ ys else B j,?_,?_,?_,?_⟩,?_⟩
  · intro j hj
    split
    · rename_i hji
      rwa [hji]
    · rename_i hji
      have hap : ∀ x ∈ B i, x ∉ B j := fun x hx => hb.apart hi hj (Ne.symm hji) hx
      refine (hb.chain j hj).unlink_other hp ?_ (hap a hm) ?_
      · intro hs
        have h1 := slotAfter_mem (.bkt i) xs
        simp only [List.mem_cons, List.mem_map] at h1 hs
        rcases h1 with h1 | ⟨b,hb1,h1⟩
        · rw [h1] at hs
          simp [Ne.symm hji] at hs
        · rw [← h1] at hs
          simp only [reduceCtorEq, Slot.next.injEq, false_or, exists_eq_right] at hs
          exact hap b (by rw [hxy]; simp [hb1]) hs
      · have h4 := hci.suffix.2.2.2
        cases ys with
        | nil => rw [show h.get (.next a) = 0 from h4]; exact (hb.chain j hj).ne_zero
        | cons c cs => rw [h4.1]; exact hap c (by rw [hxy]; simp)
  · intro j hj
    split
    · exact hdi.sublist (List.Sublist.append_left (List.sublist_cons_self a ys) xs)
    · exact hb.nodup j hj
  · rintro x ⟨hx,hxa⟩
    have hmx := hb.bucket x hx
    rw [hk]
    split
    · rename_i he
      exact (hmem x).mpr ⟨he ▸ hmx,hxa⟩
    · exact hmx
  · intro j hj x hx
    rw [hk]
    split at hx
    · rename_i hji
      subst hji
      obtain ⟨hx,hxa⟩ := (hmem x).mp hx
      exact ⟨⟨(hb.mem j hj x hx).1,hxa⟩,(hb.mem j hj x hx).2⟩
    · rename_i hji
      refine ⟨⟨(hb.mem j hj x hx).1,?_⟩,(hb.mem j hj x hx).2⟩
      rintro rfl
      exact hji ((hb.mem j hj x hx).2.symm.trans hie)
  · rintro x ⟨hx,-⟩ y ⟨hy,-⟩ he
    rw [hk,hk] at he
    exact hinj x hx y hy he

/-! ## Visiting every node -/

section
variable {γ σ : Type}

/-- One turn of the inner loop of `ht_apply`, which reads the next node before the call. -/
def htApplyBody (h : HtHeap κ) (func : Addr → σ → σ) : σ × Addr → Option (Turn (σ × Addr) σ)
  | (s,node) => if node = 0 then some (.leave s) else some (.again (func node s,(h.node node).next))

/-- The last `num` buckets. -/
def htApplyBkts (h : HtHeap κ) (nbkts : ℕ) (func : Addr → σ → σ) (fuel : ℕ) : ℕ → σ → Option σ
  | 0, s => some s
  | num + 1, s => do
    let s ← loop (htApplyBody h func) fuel (s,h.bkts (nbkts - (num + 1)))
    htApplyBkts h nbkts func fuel num s

def htApply (t : Htab κ) (h : HtHeap κ) (func : Addr → γ → σ → σ) (ctx : γ) (fuel : ℕ) (s : σ) : Option σ :=
  htApplyBkts h t.nbkts (fun a => func a ctx) fuel t.nbkts s

theorem htApply_grows (t : Htab κ) (h : HtHeap κ) (func : Addr → γ → σ → σ) (ctx : γ) (s : σ) {k m : ℕ} (hkm : k ≤ m) :
    Grows (htApply t h func ctx k s) (htApply t h func ctx m s) := by
  have hbkts : ∀ num s, Grows (htApplyBkts h t.nbkts (fun a => func a ctx) k num s)
      (htApplyBkts h t.nbkts (fun a => func a ctx) m num s) := by
    intro num
    induction num with
    | zero => exact fun s => .refl _
    | succ num ih => exact fun s => Grows.bind (loop_grows hkm _) ih
  exact hbkts t.nbkts s

theorem apply_chain (func : Addr → σ → σ) {u : Slot} {xs : List Addr} {fuel : ℕ} (hc : Chain h u xs) (hf : xs.length < fuel)
    (s : σ) : loop (htApplyBody h func) fuel (s,h.get u) = some (xs.foldl (fun s a => func a s) s) := by
  induction xs generalizing u fuel s with
  | nil =>
    obtain ⟨m,rfl⟩ : ∃ m, fuel = m + 1 := ⟨fuel - 1,by simp at hf; omega⟩
    rw [show h.get u = 0 from hc]
    exact loop_leave rfl
  | cons b bs ih =>
    obtain ⟨h1,h2,-,h4⟩ := hc
    obtain ⟨m,rfl⟩ : ∃ m, fuel = m + 1 := ⟨fuel - 1,by omega⟩
    rw [h1,List.foldl_cons,← ih h4 (show bs.length < m by simpa using hf)]
    exact loop_again (if_neg h2)

theorem htApply_spec (ht : IsTable t h S) : ∃ vs : List Addr, vs.Nodup ∧ (∀ a, a ∈ vs ↔ a ∈ S) ∧
    ∀ (γ σ : Type) (func : Addr → γ → σ → σ) (ctx : γ) (s : σ),
      ∃ fuel, htApply t h func ctx fuel s = some (vs.foldl (fun s a => func a ctx s) s) := by
  obtain ⟨hok,⟨B,hb⟩,-⟩ := ht
  let bs := fun num => (List.range' (t.nbkts - num) num).flatMap B
  refine ⟨bs t.nbkts,?_,?_,fun γ σ func ctx s => ⟨(bs t.nbkts).length + 1,?_⟩⟩
  · refine List.nodup_flatMap.mpr ⟨fun i hi => hb.nodup i (by simp at hi; omega),?_⟩
    refine (List.nodup_range' (s := t.nbkts - t.nbkts) (n := t.nbkts)).imp_of_mem fun {i j} hi hj hij a hai haj => ?_
    exact hb.apart (by simp at hi; omega) (by simp at hj; omega) hij hai haj
  · intro a
    simp only [bs, List.mem_flatMap, Nat.sub_self, List.mem_range'_1, Nat.zero_le, true_and, Nat.zero_add]
    exact ⟨fun ⟨i,hi,ha⟩ => (hb.mem i hi a ha).1,fun ha => ⟨_,hok.index_lt _,hb.bucket a ha⟩⟩
  · have hlen : ∀ i < t.nbkts, (B i).length < (bs t.nbkts).length + 1 := by
      intro i hi
      have hsub : (B i).Sublist (bs t.nbkts) := List.sublist_flatten_of_mem (List.mem_map_of_mem (by simp [hi]))
      exact Nat.lt_succ_of_le hsub.length_le
    have hbkts : ∀ num ≤ t.nbkts, ∀ s, htApplyBkts h t.nbkts (fun a => func a ctx) ((bs t.nbkts).length + 1) num s =
        some ((bs num).foldl (fun s a => func a ctx s) s) := by
      intro num
      induction num with
      | zero => exact fun _ s => rfl
      | succ num ih =>
        intro hle s
        have hnext : t.nbkts - (num + 1) + 1 = t.nbkts - num := by omega
        rw [htApplyBkts]
        have hchain := apply_chain (fun a => func a ctx) (hb.chain (t.nbkts - (num + 1)) (by omega)) (hlen _ (by omega)) s
        rw [HtHeap.get] at hchain
        rw [hchain]
        simp only [bs, List.range'_succ, hnext, List.flatMap_cons, List.foldl_append]
        exact ih (by omega) _
    exact hbkts t.nbkts (le_refl _) s

end

end Catlib.Hash
