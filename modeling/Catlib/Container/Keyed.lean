import Catlib.Logic.Loop
import Catlib.Logic.Compare

/-! # Keyed containers and the map they stand for

A container answers `put`, `get` and `del`. What it should answer is said by a map
from keys to the value put last, zero standing for no value; keys that compare equal
are one key. A container implements the map when some relation between its states and
maps is kept by every operation.
-/
namespace Catlib.Keyed

variable {κ σ : Type} {cmp : κ → κ → ℤ} {m : κ → ℕ} {k : κ} {v : ℕ}

/-! ## The abstract map -/

/-- Bind every key equal to `k`. -/
def rebind (cmp : κ → κ → ℤ) (m : κ → ℕ) (k : κ) (v : ℕ) : κ → ℕ :=
  fun k' => if cmp k' k = 0 then v else m k'

inductive Op (κ : Type) where
  | put (k : κ) (v : ℕ)
  | get (k : κ)
  | del (k : κ)

/-- The integer a `put` returns, or the data pointer of the other two. -/
inductive Ans where
  | code (r : ℤ)
  | data (v : ℕ)
  deriving DecidableEq

def Op.key : Op κ → κ
  | .put k _ => k
  | .get k => k
  | .del k => k

/-- The client never puts a null pointer. -/
def Op.NonNull : Op κ → Prop
  | .put _ v => v ≠ 0
  | _ => True

def Op.answer (m : κ → ℕ) : Op κ → Ans
  | .put k _ => .code (if m k = 0 then 0 else 1)
  | .get k => .data (m k)
  | .del k => .data (m k)

def Op.effect (cmp : κ → κ → ℤ) (m : κ → ℕ) : Op κ → κ → ℕ
  | .put k v => rebind cmp m k v
  | .get _ => m
  | .del k => rebind cmp m k 0

def answers (cmp : κ → κ → ℤ) : (κ → ℕ) → List (Op κ) → List Ans
  | _, [] => []
  | m, op :: ops => op.answer m :: answers cmp (op.effect cmp m) ops

def outcome (cmp : κ → κ → ℤ) (m : κ → ℕ) (ops : List (Op κ)) : κ → ℕ := ops.foldl (Op.effect cmp) m

theorem effect_other {op : Op κ} (hk : cmp k op.key ≠ 0) : op.effect cmp m k = m k := by
  cases op with
  | put k v => exact if_neg hk
  | get k => rfl
  | del k => exact if_neg hk

/-! ## Nodes that stand for a map -/

/-- The nodes `S`, with their keys and data, stand for the map. -/
structure Denotes (cmp : κ → κ → ℤ) (key : ℕ → κ) (data : ℕ → ℕ) (S : Finset ℕ) (m : κ → ℕ) : Prop where
  bound : ∀ a ∈ S, data a ≠ 0 ∧ ∀ k, cmp k (key a) = 0 → m k = data a
  only : ∀ k, (∀ a ∈ S, cmp k (key a) ≠ 0) → m k = 0

variable {key key' : ℕ → κ} {data data' : ℕ → ℕ} {S : Finset ℕ} {a n : ℕ}

theorem denotes_empty : Denotes cmp key data ∅ (fun _ => 0) := ⟨by simp,fun _ _ => rfl⟩

theorem Denotes.congr (hd : Denotes cmp key data S m) (hk : ∀ a ∈ S, key' a = key a) (hv : ∀ a ∈ S, data' a = data a) :
    Denotes cmp key' data' S m := by
  refine ⟨fun a ha => ?_,fun k h => hd.only k fun a ha => ?_⟩
  · rw [hv a ha,hk a ha]
    exact hd.bound a ha
  · rw [← hk a ha]
    exact h a ha

theorem Denotes.overwrite (hc : IsCmp cmp) (hd : Denotes cmp key data S m) (ha : a ∈ S) (hk : cmp k (key a) = 0)
    (hinj : ∀ b ∈ S, cmp (key b) (key a) = 0 → b = a) (hv : v ≠ 0) :
    Denotes cmp key (fun x => if x = a then v else data x) S (rebind cmp m k v) := by
  have hiff : ∀ k', cmp k' k = 0 ↔ cmp k' (key a) = 0 :=
    fun k' => ⟨fun h => hc.eq_trans h hk,fun h => hc.eq_trans h (hc.eq_swap hk)⟩
  refine ⟨fun b hb => ?_,fun k' h => ?_⟩
  · by_cases hba : b = a
    · subst hba
      refine ⟨by simpa using hv,fun k' hk' => ?_⟩
      simp [rebind, (hiff k').mpr hk']
    · rw [if_neg hba]
      refine ⟨(hd.bound b hb).1,fun k' hk' => ?_⟩
      have hne : cmp k' (key a) ≠ 0 := fun h0 => hba (hinj b hb (hc.eq_trans (hc.eq_swap hk') h0))
      rw [rebind,if_neg (mt (hiff k').mp hne)]
      exact (hd.bound b hb).2 k' hk'
  · rw [rebind,if_neg (mt (hiff k').mp (h a ha))]
    exact hd.only k' h

theorem Denotes.add (hc : IsCmp cmp) (hd : Denotes cmp key data S m) (hn : n ∉ S) (hk' : ∀ a ∈ S, key' a = key a)
    (hkn : key' n = k) (habs : ∀ x ∈ S, cmp k (key x) ≠ 0) (hv : v ≠ 0) :
    Denotes cmp key' (fun x => if x = n then v else data x) (insert n S) (rebind cmp m k v) := by
  refine ⟨fun b hb => ?_,fun k' h => ?_⟩
  · rcases Finset.mem_insert.mp hb with rfl | hb
    · refine ⟨by simpa using hv,fun k' h' => ?_⟩
      rw [hkn] at h'
      simp [rebind, h']
    · have hbn : b ≠ n := fun he => hn (he ▸ hb)
      rw [if_neg hbn,hk' b hb]
      refine ⟨(hd.bound b hb).1,fun k' h' => ?_⟩
      have hne : cmp k' k ≠ 0 := fun h0 => habs b hb (hc.eq_trans (hc.eq_swap h0) h')
      rw [rebind,if_neg hne]
      exact (hd.bound b hb).2 k' h'
  · have hne : cmp k' k ≠ 0 := hkn ▸ h n (Finset.mem_insert_self _ _)
    rw [rebind,if_neg hne]
    exact hd.only k' (fun b hb => hk' b hb ▸ h b (Finset.mem_insert_of_mem hb))

theorem Denotes.drop (hc : IsCmp cmp) (hd : Denotes cmp key data S m) (hk : cmp k (key a) = 0)
    (hinj : ∀ b ∈ S, cmp (key b) (key a) = 0 → b = a) :
    Denotes cmp key data (S.erase a) (rebind cmp m k 0) := by
  refine ⟨fun b hb => ?_,fun k' h => ?_⟩
  · obtain ⟨hba,hb⟩ := Finset.mem_erase.mp hb
    refine ⟨(hd.bound b hb).1,fun k' h' => ?_⟩
    have hne : cmp k' k ≠ 0 :=
      fun h0 => hba (hinj b hb (hc.eq_trans (hc.eq_swap h') (hc.eq_trans h0 hk)))
    rw [rebind,if_neg hne]
    exact (hd.bound b hb).2 k' h'
  · unfold rebind
    split
    · rfl
    · rename_i hne
      refine hd.only k' (fun b hb h0 => ?_)
      by_cases hba : b = a
      · subst hba
        exact hne (hc.eq_trans h0 (hc.eq_swap hk))
      · exact h b (Finset.mem_erase.mpr ⟨hba,hb⟩) h0

theorem Denotes.drop_absent (hc : IsCmp cmp) (hd : Denotes cmp key data S m) (habs : ∀ x ∈ S, cmp k (key x) ≠ 0) :
    rebind cmp m k 0 = m := by
  funext k'
  unfold rebind
  split
  · rename_i h0
    exact (hd.only k' (fun a ha h => habs a ha (hc.eq_trans (hc.eq_swap h0) h))).symm
  · rfl

/-! ## Containers -/

/-- The operations of a container. A `put` is told the address an allocation would
return; `avail` says which addresses a working allocator may return. -/
structure Container (κ σ : Type) where
  put : σ → κ → ℕ → ℕ → ℕ → Option (σ × ℤ)
  get : σ → κ → ℕ → Option (σ × ℕ)
  del : σ → κ → ℕ → Option (σ × ℕ)
  avail : σ → ℕ → Prop

inductive Step (C : Container κ σ) : σ → Op κ → Ans → σ → Prop
  | put {s s' : σ} {k : κ} {v n fuel : ℕ} {r : ℤ} (hn : C.avail s n) (hs : C.put s k v n fuel = some (s',r)) :
      Step C s (.put k v) (.code r) s'
  | get {s s' : σ} {k : κ} {v fuel : ℕ} (hs : C.get s k fuel = some (s',v)) : Step C s (.get k) (.data v) s'
  | del {s s' : σ} {k : κ} {v fuel : ℕ} (hs : C.del s k fuel = some (s',v)) : Step C s (.del k) (.data v) s'

/-- A sequence of operations, with the answers they gave. -/
inductive Run (C : Container κ σ) : σ → List (Op κ) → List Ans → σ → Prop
  | nil (s : σ) : Run C s [] [] s
  | cons {s s' s'' : σ} {op : Op κ} {r : Ans} {ops : List (Op κ)} {rs : List Ans} (hs : Step C s op r s')
      (hr : Run C s' ops rs s'') : Run C s (op :: ops) (r :: rs) s''

/-- The relation ties states to the maps they stand for: every operation comes back, answers
as the map does, and leads to the next map. -/
structure Implements (C : Container κ σ) (cmp : κ → κ → ℤ) (R : σ → (κ → ℕ) → Prop) : Prop where
  put : ∀ {s m} k {v n}, R s m → C.avail s n → v ≠ 0 →
    ∃ fuel s', C.put s k v n fuel = some (s',if m k = 0 then 0 else 1) ∧ R s' (rebind cmp m k v)
  get : ∀ {s m} k, R s m → ∃ fuel s', C.get s k fuel = some (s',m k) ∧ R s' m
  del : ∀ {s m} k, R s m → ∃ fuel s', C.del s k fuel = some (s',m k) ∧ R s' (rebind cmp m k 0)
  put_grows : ∀ s k v n i j, i ≤ j → Grows (C.put s k v n i) (C.put s k v n j)
  get_grows : ∀ s k i j, i ≤ j → Grows (C.get s k i) (C.get s k j)
  del_grows : ∀ s k i j, i ≤ j → Grows (C.del s k i) (C.del s k j)

variable {C : Container κ σ} {R : σ → (κ → ℕ) → Prop} {s s' : σ}

theorem Implements.step (hC : Implements C cmp R) {op : Op κ} {r : Ans} (hs : R s m) (hop : op.NonNull)
    (hst : Step C s op r s') : r = op.answer m ∧ R s' (op.effect cmp m) := by
  cases hst with
  | @put s' k v n fuel r hn h =>
    obtain ⟨_,_,h',hR⟩ := hC.put k hs hn hop
    cases Grows.agree (fun i j => hC.put_grows _ k v n i j) h h'
    exact ⟨rfl,hR⟩
  | @get s' k v fuel h =>
    obtain ⟨_,_,h',hR⟩ := hC.get k hs
    cases Grows.agree (fun i j => hC.get_grows _ k i j) h h'
    exact ⟨rfl,hR⟩
  | @del s' k v fuel h =>
    obtain ⟨_,_,h',hR⟩ := hC.del k hs
    cases Grows.agree (fun i j => hC.del_grows _ k i j) h h'
    exact ⟨rfl,hR⟩

theorem Implements.run (hC : Implements C cmp R) {ops : List (Op κ)} {rs : List Ans} (hr : Run C s ops rs s')
    (hs : R s m) (hops : ∀ op ∈ ops, op.NonNull) : rs = answers cmp m ops ∧ R s' (outcome cmp m ops) := by
  induction hr generalizing m with
  | nil s => exact ⟨rfl,hs⟩
  | @cons s s' s'' op r ops rs hst _ ih =>
    obtain ⟨rfl,hR⟩ := hC.step hs (hops op (by simp)) hst
    obtain ⟨rfl,hR'⟩ := ih hR (fun o ho => hops o (List.mem_cons_of_mem _ ho))
    exact ⟨rfl,hR'⟩

theorem Implements.progress (hC : Implements C cmp R) (hs : R s m) (ha : ∃ n, C.avail s n) {op : Op κ}
    (hop : op.NonNull) : ∃ r s', Step C s op r s' := by
  cases op with
  | put k v =>
    obtain ⟨n,hn⟩ := ha
    obtain ⟨_,s',h,-⟩ := hC.put k hs hn hop
    exact ⟨_,s',.put hn h⟩
  | get k =>
    obtain ⟨_,s',h,-⟩ := hC.get k hs
    exact ⟨_,s',.get h⟩
  | del k =>
    obtain ⟨_,s',h,-⟩ := hC.del k hs
    exact ⟨_,s',.del h⟩

end Catlib.Keyed
