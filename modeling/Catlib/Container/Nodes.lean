import Catlib.Container.Keyed
import Catlib.Tree.Linked

/-! # Containers of allocated nodes

The containers of stduse.c allocate a node for every key and link it into an intrusive
structure. They differ in the structure alone: how a key is sought, and how a node is
prepared, linked in and taken out.
-/
namespace Catlib.Container
open Linked (Addr)
open Keyed

variable {H L κ : Type}

/-- A container: the memory of its structure, the data field of its nodes, the nodes that
are allocated, and the flag `abort_on_fail`. -/
structure Held (H : Type) where
  mem : H
  data : Addr → Addr
  live : Finset Addr
  abortOnFail : Bool

/-- The operations of an intrusive structure. Seeking a key finds its node, or else a place
that `ins` accepts; `own` are the addresses the structure itself takes. -/
structure Intrusive (H L κ : Type) where
  seek : H → κ → ℕ → Option (H × (Addr ⊕ L))
  ninit : H → Addr → κ → H
  ins : H → Addr → L → ℕ → Option H
  rem : H → Addr → ℕ → Option H
  own : Addr → Prop

def Held.setData (s : Held H) (n v : Addr) : Held H :=
  { s with data := fun x => if x = n then v else s.data x }

/-- `node_alloc`, once `malloc` has answered with `n`. -/
def Held.nodeAlloc (I : Intrusive H L κ) (s : Held H) (n : Addr) (key : κ) : Held H :=
  { s with mem := I.ninit s.mem n key, live := insert n s.live }

def Held.nodeFree (s : Held H) (n : Addr) : Held H := { s with live := s.live.erase n }

/-- The common body of the put functions; `n` is the answer of `malloc`. -/
def putNode (I : Intrusive H L κ) (s : Held H) (key : κ) (data n : Addr) (fuel : ℕ) : Option (Held H × ℤ) := do
  let (h,r) ← I.seek s.mem key fuel
  let s := { s with mem := h }
  match r with
  | .inl a => return (s.setData a data,1)
  | .inr l =>
    if n = 0 then
      if s.abortOnFail then none else return (s,-1)
    else
      let s := s.nodeAlloc I n key
      let s := s.setData n data
      let h ← I.ins s.mem n l fuel
      return ({ s with mem := h },0)

/-- The common body of the get functions. -/
def getNode (I : Intrusive H L κ) (s : Held H) (key : κ) (fuel : ℕ) : Option (Held H × Addr) := do
  let (h,r) ← I.seek s.mem key fuel
  let s := { s with mem := h }
  match r with
  | .inl a => return (s,s.data a)
  | .inr _ => return (s,0)

/-- The common body of the del functions. -/
def delNode (I : Intrusive H L κ) (s : Held H) (key : κ) (fuel : ℕ) : Option (Held H × Addr) := do
  let (h,r) ← I.seek s.mem key fuel
  let s := { s with mem := h }
  match r with
  | .inl a =>
    let data := s.data a
    let h ← I.rem s.mem a fuel
    let s := { s with mem := h }
    return (s.nodeFree a,data)
  | .inr _ => return (s,0)

/-- What `malloc` may answer while the container lives. -/
def Held.Avail (I : Intrusive H L κ) (s : Held H) (n : Addr) : Prop := n ≠ 0 ∧ ¬I.own n ∧ n ∉ s.live

/-- A structure that finds, adds and removes nodes by key. -/
structure Laws (I : Intrusive H L κ) (cmp : κ → κ → ℤ) (key : H → Addr → κ) (Ok : H → Finset Addr → Prop)
    (Place : H → κ → L → Prop) : Prop where
  seek : ∀ {h S} k, Ok h S → ∃ fuel h' r, I.seek h k fuel = some (h',r) ∧ Ok h' S ∧ key h' = key h ∧
    ((∃ a, r = .inl a ∧ a ∈ S ∧ cmp k (key h a) = 0) ∨
      ∃ l, r = .inr l ∧ (∀ x ∈ S, cmp k (key h x) ≠ 0) ∧ Place h' k l)
  ins : ∀ {h S k l n}, Ok h S → n ≠ 0 → ¬I.own n → n ∉ S → (∀ x ∈ S, cmp k (key h x) ≠ 0) → Place h k l →
    ∃ fuel h', I.ins (I.ninit h n k) n l fuel = some h' ∧ Ok h' (insert n S) ∧ key h' n = k ∧
      ∀ x ∈ S, key h' x = key h x
  rem : ∀ {h S a}, Ok h S → a ∈ S → ∃ fuel h', I.rem h a fuel = some h' ∧ Ok h' (S.erase a) ∧ key h' = key h
  inj : ∀ {h S a b}, Ok h S → a ∈ S → b ∈ S → cmp (key h a) (key h b) = 0 → a = b
  seek_grows : ∀ h k i j, i ≤ j → Grows (I.seek h k i) (I.seek h k j)
  ins_grows : ∀ h n l i j, i ≤ j → Grows (I.ins h n l i) (I.ins h n l j)
  rem_grows : ∀ h n i j, i ≤ j → Grows (I.rem h n i) (I.rem h n j)

variable {I : Intrusive H L κ} {cmp : κ → κ → ℤ} {key : H → Addr → κ} {Ok : H → Finset Addr → Prop}
  {Place : H → κ → L → Prop} {s : Held H} {m : κ → ℕ} {k : κ}

/-- A container state is sound and stands for the map. -/
def Rep (cmp : κ → κ → ℤ) (key : H → Addr → κ) (Ok : H → Finset Addr → Prop) (s : Held H) (m : κ → ℕ) : Prop :=
  Ok s.mem s.live ∧ Denotes cmp (key s.mem) s.data s.live m

theorem putNode_spec (hc : IsCmp cmp) (hI : Laws I cmp key Ok Place) (hs : Rep cmp key Ok s m) {v n : Addr}
    (hn : s.Avail I n) (hv : v ≠ 0) (k : κ) :
    ∃ fuel s', putNode I s k v n fuel = some (s',if m k = 0 then 0 else 1) ∧ Rep cmp key Ok s' (rebind cmp m k v) := by
  obtain ⟨hok,hd⟩ := hs
  obtain ⟨f,h',r,hf,hok',hkey,⟨a,rfl,ha,hk⟩ | ⟨l,rfl,habs,hp⟩⟩ := hI.seek k hok
  · have hm : m k ≠ 0 := by
      rw [(hd.bound a ha).2 k hk]
      exact (hd.bound a ha).1
    refine ⟨f,({ s with mem := h' } : Held H).setData a v,by simp [putNode, hf, hm],hok',?_⟩
    refine Denotes.congr (hd.overwrite hc ha hk (fun b hb => hI.inj hok hb ha) hv) ?_ (fun _ _ => rfl)
    exact fun b _ => congrFun hkey b
  · have hm : m k = 0 := hd.only k habs
    obtain ⟨g,h'',hg,hok'',hkn,hko⟩ := hI.ins hok' hn.1 hn.2.1 hn.2.2 (by rwa [hkey]) hp
    let s₁ : Held H := (({ s with mem := h' } : Held H).nodeAlloc I n k).setData n v
    refine ⟨max f g,{ s₁ with mem := h'' },?_,hok'',hd.add hc hn.2.2 ?_ hkn habs hv⟩
    · have h1 := hI.seek_grows s.mem k f _ (le_max_left f g) _ hf
      have h2 := hI.ins_grows (I.ninit h' n k) n l g _ (le_max_right f g) _ hg
      simp [putNode, h1, hn.1, Held.nodeAlloc, Held.setData, h2, hm, s₁]
    · intro b hb
      exact (hko b hb).trans (congrFun hkey b)

theorem getNode_spec (hI : Laws I cmp key Ok Place) (hs : Rep cmp key Ok s m) (k : κ) :
    ∃ fuel s', getNode I s k fuel = some (s',m k) ∧ Rep cmp key Ok s' m := by
  obtain ⟨hok,hd⟩ := hs
  obtain ⟨f,h',r,hf,hok',hkey,hr⟩ := hI.seek k hok
  refine ⟨f,{ s with mem := h' },?_,hok',hd.congr (fun b _ => congrFun hkey b) (fun _ _ => rfl)⟩
  rcases hr with ⟨a,rfl,ha,hk⟩ | ⟨l,rfl,habs,-⟩
  · simp [getNode, hf, (hd.bound a ha).2 k hk]
  · simp [getNode, hf, hd.only k habs]

theorem delNode_spec (hc : IsCmp cmp) (hI : Laws I cmp key Ok Place) (hs : Rep cmp key Ok s m) (k : κ) :
    ∃ fuel s', delNode I s k fuel = some (s',m k) ∧ Rep cmp key Ok s' (rebind cmp m k 0) := by
  obtain ⟨hok,hd⟩ := hs
  obtain ⟨f,h',r,hf,hok',hkey,⟨a,rfl,ha,hk⟩ | ⟨l,rfl,habs,-⟩⟩ := hI.seek k hok
  · obtain ⟨g,h'',hg,hok'',hkey'⟩ := hI.rem hok' ha
    have h1 := hI.seek_grows s.mem k f _ (le_max_left f g) _ hf
    have h2 := hI.rem_grows h' a g _ (le_max_right f g) _ hg
    refine ⟨max f g,({ s with mem := h'' } : Held H).nodeFree a,?_,hok'',?_⟩
    · simp [delNode, h1, h2, (hd.bound a ha).2 k hk]
    · refine (hd.drop hc hk (fun b hb => hI.inj hok hb ha)).congr (fun b _ => ?_) (fun _ _ => rfl)
      exact (congrFun hkey' b).trans (congrFun hkey b)
  · refine ⟨f,{ s with mem := h' },by simp [delNode, hf, hd.only k habs],hok',?_⟩
    rw [hd.drop_absent hc habs]
    exact hd.congr (fun b _ => congrFun hkey b) (fun _ _ => rfl)

theorem putNode_grows (hI : Laws I cmp key Ok Place) (s : Held H) (k : κ) (v n : Addr) (i j : ℕ) (hij : i ≤ j) :
    Grows (putNode I s k v n i) (putNode I s k v n j) := by
  refine Grows.bind (hI.seek_grows _ _ _ _ hij) ?_
  rintro ⟨h,a | l⟩
  · exact .refl _
  · exact Grows.ite (.refl _) (Grows.bind (hI.ins_grows _ _ _ _ _ hij) (fun _ => .refl _))

theorem getNode_grows (hI : Laws I cmp key Ok Place) (s : Held H) (k : κ) (i j : ℕ) (hij : i ≤ j) :
    Grows (getNode I s k i) (getNode I s k j) :=
  Grows.bind (hI.seek_grows _ _ _ _ hij) (fun _ => .refl _)

theorem delNode_grows (hI : Laws I cmp key Ok Place) (s : Held H) (k : κ) (i j : ℕ) (hij : i ≤ j) :
    Grows (delNode I s k i) (delNode I s k j) := by
  refine Grows.bind (hI.seek_grows _ _ _ _ hij) ?_
  rintro ⟨h,a | l⟩
  · exact Grows.bind (hI.rem_grows _ _ _ _ hij) (fun _ => .refl _)
  · exact .refl _

theorem nodes_implement (hc : IsCmp cmp) (hI : Laws I cmp key Ok Place) :
    Implements ⟨putNode I,getNode I,delNode I,Held.Avail I⟩ cmp (Rep cmp key Ok) where
  put k _ _ hs hn hv := putNode_spec hc hI hs hn hv k
  get k hs := getNode_spec hI hs k
  del k hs := delNode_spec hc hI hs k
  put_grows := putNode_grows hI
  get_grows := getNode_grows hI
  del_grows := delNode_grows hI

end Catlib.Container
