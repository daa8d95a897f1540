import Catlib.Container.Stduse
import Catlib.Tree.Apply

/-! # The apply functions of stduse.c

A container hands its intrusive structure a wrapper, with the function of the caller and a
context in a record of its own; the wrapper calls the function with the data of the node it
is given. The context in the record is the one the container was created with.
-/
namespace Catlib.Container
open Linked Keyed Hash Avl RedBlack Splay

variable {κ σ H L : Type} {cmp : κ → κ → ℤ} {m : κ → Option Addr} {k : κ} {v : Addr}

/-- `struct apply_ctx`. -/
structure ApplyCtx (σ : Type) where
  ctx : Addr
  f : Addr → Addr → σ → σ

/-- The common body of the wrappers: the node is the first member of what holds it. -/
def applyWrap (s : Held H) (p : Addr) (ac : ApplyCtx σ) : σ → σ := ac.f (s.data p) ac.ctx

def chtApplyWrap (s : Held (HtHeap κ)) (p : Addr) (ac : ApplyCtx σ) : σ → σ := applyWrap s p ac
def cavlApplyWrap (s : Held (AvlHeap κ)) (p : Addr) (ac : ApplyCtx σ) : σ → σ := applyWrap s p ac
def crbApplyWrap (s : Held (RbHeap κ)) (p : Addr) (ac : ApplyCtx σ) : σ → σ := applyWrap s p ac
def cstApplyWrap (s : Held (StHeap κ)) (p : Addr) (ac : ApplyCtx σ) : σ → σ := applyWrap s p ac

/-- `cht_apply`; `tctx` is the field `ctx` of the table, and the argument `ctx` goes unread. -/
def chtApply (T : Htab κ) (s : Held (HtHeap κ)) (tctx : Addr) (f : Addr → Addr → σ → σ) (_ctx : Addr) (fuel : ℕ) (st : σ) :
    Option σ := htApply T s.mem (chtApplyWrap s) ⟨tctx,f⟩ fuel st

def cavlApply (t : Addr) (s : Held (AvlHeap κ)) (tctx : Addr) (f : Addr → Addr → σ → σ) (_ctx : Addr) (fuel : ℕ) (st : σ) :
    Option σ := avlApply s.mem t (cavlApplyWrap s) ⟨tctx,f⟩ fuel st

def crbApply (t : Addr) (s : Held (RbHeap κ)) (tctx : Addr) (f : Addr → Addr → σ → σ) (_ctx : Addr) (fuel : ℕ) (st : σ) :
    Option σ := rbApply s.mem t (crbApplyWrap s) ⟨tctx,f⟩ fuel st

def cstApply (t : Addr) (s : Held (StHeap κ)) (tctx : Addr) (f : Addr → Addr → σ → σ) (_ctx : Addr) (fuel : ℕ) (st : σ) :
    Option σ := stApply s.mem t (cstApplyWrap s) ⟨tctx,f⟩ fuel st

/-! ## What is stored -/

/-- The keys equal to `k` are bound to `v`, or to nothing. -/
def bindKey (cmp : κ → κ → ℤ) (m : κ → Option Addr) (k : κ) (v : Option Addr) : κ → Option Addr :=
  fun k' => if cmp k' k = 0 then v else m k'

/-- The states that operations lead to, whether their allocations succeed or fail, with what
was put and not deleted since. -/
inductive History {τ : Type} (C : Container κ τ) (cmp : κ → κ → ℤ) (s₀ : τ) : τ → (κ → Option Addr) → Prop
  | start : History C cmp s₀ s₀ (fun _ => none)
  | put {s s' : τ} {m : κ → Option Addr} {k : κ} {v n fuel : ℕ} {r : ℤ} (h : History C cmp s₀ s m)
      (hn : n = 0 ∨ C.avail s n) (hs : C.put s k v n fuel = some (s',r)) :
      History C cmp s₀ s' (if r = -1 then m else bindKey cmp m k (some v))
  | get {s s' : τ} {m : κ → Option Addr} {k : κ} {v fuel : ℕ} (h : History C cmp s₀ s m) (hs : C.get s k fuel = some (s',v)) :
      History C cmp s₀ s' m
  | del {s s' : τ} {m : κ → Option Addr} {k : κ} {v fuel : ℕ} (h : History C cmp s₀ s m) (hs : C.del s k fuel = some (s',v)) :
      History C cmp s₀ s' (bindKey cmp m k none)

/-- One key for every binding. -/
structure Enumerates (cmp : κ → κ → ℤ) (m : κ → Option Addr) (ks : List κ) : Prop where
  apart : ks.Pairwise fun a b => cmp a b ≠ 0
  bound : ∀ k, m k ≠ none ↔ ∃ k' ∈ ks, cmp k k' = 0

/-- The calls a run makes, as data and context, read off by every function it is given. -/
def Calls (run : ∀ σ : Type, (Addr → Addr → σ → σ) → ℕ → σ → Option σ) (cs : List (Addr × Addr)) : Prop :=
  ∀ (σ : Type) (f : Addr → Addr → σ → σ) (s : σ), ∃ fuel, run σ f fuel s = some (cs.foldl (fun s c => f c.1 c.2 s) s)

/-- One call for every binding, with its data and the context. -/
def CallsEach (run : ∀ σ : Type, (Addr → Addr → σ → σ) → ℕ → σ → Option σ) (cmp : κ → κ → ℤ) (m : κ → Option Addr)
    (ctx : Addr) : Prop :=
  ∃ cs ks, Calls run cs ∧ Enumerates cmp m ks ∧ cs.map (fun c => (some c.1,c.2)) = ks.map fun k => (m k,ctx)

theorem Calls.unique {run : ∀ σ : Type, (Addr → Addr → σ → σ) → ℕ → σ → Option σ} {cs cs' : List (Addr × Addr)}
    (hg : ∀ σ f s i j, i ≤ j → Grows (run σ f i s) (run σ f j s)) (h : Calls run cs) (h' : Calls run cs') : cs = cs' := by
  have hrec : ∀ (cs acc : List (Addr × Addr)), cs.foldl (fun s c => s ++ [(c.1,c.2)]) acc = acc ++ cs := by
    intro cs
    induction cs with
    | nil => simp
    | cons c cs ih => simp [ih]
  obtain ⟨i,hi⟩ := h _ (fun d x acc => acc ++ [(d,x)]) []
  obtain ⟨j,hj⟩ := h' _ (fun d x acc => acc ++ [(d,x)]) []
  have he := Grows.agree (hg _ (fun d x acc => acc ++ [(d,x)]) []) hi hj
  rwa [hrec,hrec] at he

/-! ## Null data

The map that the containers implement marks a missing key by zero. Data pointers counted from
one make room for null data in it.
-/

def Held.up (s : Held H) : Held H := { s with data := fun a => s.data a + 1 }

/-- The map with its values counted from one. -/
def upMap (m : κ → Option Addr) : κ → ℕ := fun k => (m k).elim 0 (· + 1)

theorem upMap_bindKey (m : κ → Option Addr) (k : κ) (v : Option Addr) :
    upMap (bindKey cmp m k v) = rebind cmp (upMap m) k (v.elim 0 (· + 1)) := by
  funext k'
  simp only [upMap, bindKey, rebind]
  split <;> rfl

theorem Held.up_setData (s : Held H) (a v : Addr) : (s.setData a v).up = s.up.setData a (v + 1) := by
  simp only [Held.up, Held.setData, Held.mk.injEq, true_and, and_true]
  funext x
  split <;> rfl

theorem putNode_up (I : Intrusive H L κ) (s : Held H) (k : κ) (v n fuel : ℕ) :
    putNode I s.up k (v + 1) n fuel = (putNode I s k v n fuel).map fun r => (r.1.up,r.2) := by
  simp only [putNode, show s.up.mem = s.mem from rfl, show s.up.abortOnFail = s.abortOnFail from rfl]
  cases I.seek s.mem k fuel with
  | none => rfl
  | some r =>
    obtain ⟨h,a | l⟩ := r
    · exact congrArg some (Prod.ext (Held.up_setData { s with mem := h } a v).symm rfl)
    · by_cases hn : n = 0
      · simp only [hn, if_true]
        cases s.abortOnFail <;> rfl
      · simp only [Option.bind_eq_bind, Option.bind_some, hn, if_false, Held.nodeAlloc, Held.setData]
        cases I.ins (I.ninit h n k) n l fuel with
        | none => rfl
        | some h' =>
          exact congrArg some (Prod.ext (Held.up_setData { s with mem := h', live := insert n s.live } n v).symm rfl)

theorem getNode_up (I : Intrusive H L κ) (s : Held H) (k : κ) (fuel : ℕ) :
    (getNode I s.up k fuel).map Prod.fst = (getNode I s k fuel).map fun r => r.1.up := by
  simp only [getNode, show s.up.mem = s.mem from rfl]
  cases I.seek s.mem k fuel with
  | none => rfl
  | some r => obtain ⟨h,a | l⟩ := r <;> rfl

theorem delNode_up (I : Intrusive H L κ) (s : Held H) (k : κ) (fuel : ℕ) :
    (delNode I s.up k fuel).map Prod.fst = (delNode I s k fuel).map fun r => r.1.up := by
  simp only [delNode, show s.up.mem = s.mem from rfl]
  cases I.seek s.mem k fuel with
  | none => rfl
  | some r =>
    obtain ⟨h,a | l⟩ := r
    · cases hr : I.rem h a fuel <;> simp [hr, Held.up, Held.nodeFree]
    · rfl

/-! ## The states reached -/

section
variable {I : Intrusive H L κ} {key : H → Addr → κ} {Ok : H → Finset Addr → Prop} {Place : H → κ → L → Prop} {s s' : Held H}

theorem putNode_cases (hc : IsCmp cmp) (hI : Laws I cmp key Ok Place) {m : κ → ℕ} (hs : Rep cmp key Ok s m) {v n fuel : ℕ}
    {r : ℤ} (hn : n = 0 ∨ s.Avail I n) (hv : v ≠ 0) (hp : putNode I s k v n fuel = some (s',r)) :
    Rep cmp key Ok s' (if r = -1 then m else rebind cmp m k v) := by
  rcases hn with rfl | hn
  · obtain ⟨hok,hd⟩ := hs
    obtain ⟨f,h',x,hf,hok',hkey,hx⟩ := hI.seek k hok
    have hp' := putNode_grows hI s k v 0 fuel _ (le_max_left fuel f) _ hp
    rw [putNode,hI.seek_grows s.mem k f _ (le_max_right fuel f) _ hf] at hp'
    have hd' : Denotes cmp (key h') s.data s.live m := hd.congr (fun b _ => congrFun hkey b) fun _ _ => rfl
    rcases hx with ⟨a,rfl,ha,hk⟩ | ⟨l,rfl,habs,-⟩
    · obtain ⟨rfl,rfl⟩ := Prod.ext_iff.mp (Option.some.inj hp')
      rw [← hkey] at hk
      exact ⟨hok',hd'.overwrite hc ha hk (fun b hb => hI.inj hok' hb ha) hv⟩
    · cases hab : s.abortOnFail with
      | true => simp [hab] at hp'
      | false =>
        simp only [Option.bind_eq_bind, Option.bind_some, hab] at hp'
        obtain ⟨rfl,rfl⟩ := Prod.ext_iff.mp (Option.some.inj hp')
        exact ⟨hok',hd'⟩
  · obtain ⟨f,s'',hput,hrep⟩ := putNode_spec hc hI hs hn hv k
    obtain ⟨rfl,rfl⟩ := Prod.mk.inj (Grows.agree (putNode_grows hI s k v n) hp hput)
    rwa [if_neg (by split <;> decide)]

/-- The nodes are sound, and their data counted from one stand for the bindings. -/
def Stored (cmp : κ → κ → ℤ) (key : H → Addr → κ) (Ok : H → Finset Addr → Prop) (s : Held H) (m : κ → Option Addr) : Prop :=
  Rep cmp key Ok s.up (upMap m)

theorem History.stored (hc : IsCmp cmp) (hI : Laws I cmp key Ok Place) {C : Container κ (Held H)} {s₀ : Held H}
    (hput : ∀ s k v n fuel r, C.put s k v n fuel = some r → putNode I s k v n fuel = some r) (hget : C.get = getNode I)
    (hdel : C.del = delNode I) (havail : C.avail = Held.Avail I) (h0 : Rep cmp key Ok s₀ fun _ => 0) (hlive : s₀.live = ∅)
    (h : History C cmp s₀ s m) : Stored cmp key Ok s m := by
  induction h with
  | start => exact ⟨h0.1,by rw [show s₀.up.live = ∅ from hlive]; exact denotes_empty⟩
  | @put s s' m k v n fuel r h hn hs ih =>
    have hup : putNode I s.up k (v + 1) n fuel = some (s'.up,r) := by
      rw [putNode_up,hput _ _ _ _ _ _ hs]
      exact rfl
    have hrep := putNode_cases hc hI ih (hn.imp_right fun hn => (congrFun (congrFun havail s) n).mp hn) (Nat.succ_ne_zero v) hup
    rw [Stored]
    split
    · simpa only [*, if_true] using hrep
    · rename_i hr
      rw [upMap_bindKey]
      rwa [if_neg hr] at hrep
  | @get s s' m k v fuel h hs ih =>
    obtain ⟨f,s'',hg,hrep⟩ := getNode_spec hI ih k
    have hup := getNode_up I s k fuel
    rw [hget] at hs
    rw [hs,Option.map_some] at hup
    obtain ⟨r,hr,hfst⟩ := Option.map_eq_some_iff.mp hup
    rw [Grows.agree (getNode_grows hI s.up k) hr hg] at hfst
    obtain rfl : s'' = s'.up := hfst
    exact hrep
  | @del s s' m k v fuel h hs ih =>
    obtain ⟨f,s'',hg,hrep⟩ := delNode_spec hc hI ih k
    have hup := delNode_up I s k fuel
    rw [hdel] at hs
    rw [hs,Option.map_some] at hup
    obtain ⟨r,hr,hfst⟩ := Option.map_eq_some_iff.mp hup
    rw [Grows.agree (delNode_grows hI s.up k) hr hg] at hfst
    obtain rfl : s'' = s'.up := hfst
    rw [Stored,upMap_bindKey]
    exact hrep

theorem callsEach_iff (hc : IsCmp cmp) (hI : Laws I cmp key Ok Place) (hs : Stored cmp key Ok s m)
    {run : ∀ σ : Type, (Addr → Addr → σ → σ) → ℕ → σ → Option σ} (hg : ∀ σ f s i j, i ≤ j → Grows (run σ f i s) (run σ f j s))
    {vs : List Addr} {tctx ctx : Addr} (hn : vs.Nodup) (hvs : ∀ a, a ∈ vs ↔ a ∈ s.live)
    (hr : Calls run (vs.map fun a => (s.data a,tctx))) : CallsEach run cmp m ctx ↔ tctx = ctx ∨ ∀ k, m k = none := by
  obtain ⟨hok,hd⟩ := hs
  have hm : ∀ a ∈ vs, ∀ k, cmp k (key s.mem a) = 0 → m k = some (s.data a) := by
    intro a ha k hk
    have hb := (hd.bound a ((hvs a).mp ha)).2 k hk
    cases hmk : m k with
    | none => simp [upMap, hmk, Held.up] at hb
    | some v => simpa [upMap, hmk, Held.up] using hb
  have habs : ∀ k, (∀ a ∈ vs, cmp k (key s.mem a) ≠ 0) → m k = none := by
    intro k hk
    have hb := hd.only k fun a ha => hk a ((hvs a).mpr ha)
    cases hmk : m k with
    | none => rfl
    | some v => simp [upMap, hmk] at hb
  constructor
  · rintro ⟨cs,ks,hcs,hks,he⟩
    obtain rfl := hcs.unique hg hr
    refine or_iff_not_imp_left.mpr fun hne k => habs k fun a ha => ?_
    obtain ⟨x,hx,hxe⟩ := List.mem_map.mp (he ▸ List.mem_map_of_mem (List.mem_map_of_mem ha))
    exact absurd (congrArg Prod.snd hxe).symm hne
  · intro hor
    refine ⟨_,vs.map (key s.mem),hr,⟨?_,fun k => ?_⟩,?_⟩
    · refine List.pairwise_map.mpr (hn.imp_of_mem fun ha hb hne h0 => hne ?_)
      exact hI.inj hok ((hvs _).mp ha) ((hvs _).mp hb) h0
    · simp only [List.mem_map, exists_exists_and_eq_and]
      constructor
      · intro hk
        by_contra hno
        exact hk (habs k fun a ha h0 => hno ⟨a,ha,h0⟩)
      · rintro ⟨a,ha,hk⟩
        simp [hm a ha k hk]
    · rw [List.map_map,List.map_map]
      refine List.map_congr_left fun a ha => ?_
      have hma := hm a ha _ (hc.refl _)
      rcases hor with rfl | hnone
      · simp [hma]
      · simp [hnone] at hma

end

/-! ## The four containers -/

theorem calls_of_visits {s : Held H} {run : ∀ σ : Type, (Addr → Addr → σ → σ) → ℕ → σ → Option σ} {vs : List Addr} {tctx : Addr}
    (h : ∀ (σ : Type) (f : Addr → Addr → σ → σ) (st : σ),
      ∃ fuel, run σ f fuel st = some (vs.foldl (fun st a => applyWrap s a ⟨tctx,f⟩ st) st)) :
    Calls run (vs.map fun a => (s.data a,tctx)) := by
  intro σ f st
  obtain ⟨fuel,hf⟩ := h σ f st
  exact ⟨fuel,by rw [hf,List.foldl_map]; exact rfl⟩

theorem tree_visits {δ : Type} {P : LTree δ → Prop} {h : Heap δ κ} {S : Finset Addr} {t : Addr}
    (ht : IsSearchTree P cmp h t S) : ∃ vs : List Addr, vs.Nodup ∧ (∀ a, a ∈ vs ↔ a ∈ S) ∧
      ∀ (γ σ : Type) (func : Addr → γ → σ → σ) (ctx : γ) (s : σ),
        ∃ fuel, applyTree h t func ctx fuel s = some (vs.foldl (fun s a => func a ctx s) s) := by
  obtain ⟨T,hz,-,-,hS,-⟩ := ht
  refine ⟨T.postorder,T.postorder_perm.nodup_iff.mpr hz.focus_distinct,fun a => ?_,fun γ σ => applyTree_spec hz⟩
  exact T.postorder_perm.mem_iff.trans (hS a)

section
variable {hash : κ → ℕ} {b : Bool} {data : Addr → Addr} {t tctx ctx : Addr}

theorem chtApply_iff (hc : IsCmp cmp) (hh : ∀ a b, cmp a b = 0 → hash a = hash b) {h : HtHeap κ} {nbkts : ℕ} {T : Htab κ}
    {s₀ s : Held (HtHeap κ)} (hnew : chtNew h data nbkts cmp hash b = some (T,s₀)) (hs : History (cht T) cmp s₀ s m) :
    CallsEach (fun _ f => chtApply T s tctx f ctx) cmp m ctx ↔ tctx = ctx ∨ ∀ k, m k = none := by
  obtain ⟨rfl,rfl,h0⟩ := chtNew_rep hnew
  have hlive : s₀.live = ∅ := by
    obtain ⟨r,-,hr⟩ := Option.map_eq_some_iff.mp hnew
    rw [← (Prod.mk.inj hr).2]
  have hI := chtNodes_laws hc hh
  have hst : Stored T.cmp HtHeap.keys (fun h S => IsTable T h S) s m := by
    refine hs.stored hc hI (fun s k v n fuel r hp => ?_) rfl rfl rfl h0 hlive
    exact (Option.ite_none_left_eq_some.mp hp).2
  obtain ⟨vs,hn,hvs,hall⟩ := htApply_spec hst.1
  exact callsEach_iff hc hI hst (fun σ f st i j hij => htApply_grows T s.mem _ _ st hij) hn hvs
    (calls_of_visits fun σ f st => hall _ σ (applyWrap s) ⟨tctx,f⟩ st)

theorem treeApply_iff {δ : Type} {P : LTree δ → Prop} {I : Intrusive (Heap δ κ) L κ} {Place : Heap δ κ → κ → L → Prop}
    (hc : IsCmp cmp) (hI : Laws I cmp Heap.keys (fun h S => IsSearchTree P cmp h t S) Place) {C : Container κ (Held (Heap δ κ))}
    (hC : C = ⟨putNode I,getNode I,delNode I,Held.Avail I⟩) {s₀ s : Held (Heap δ κ)}
    (h0 : Rep cmp Heap.keys (fun h S => IsSearchTree P cmp h t S) s₀ fun _ => 0) (hlive : s₀.live = ∅) (hs : History C cmp s₀ s m) :
    CallsEach (fun _ f fuel => applyTree s.mem t (applyWrap s) ⟨tctx,f⟩ fuel) cmp m ctx ↔ tctx = ctx ∨ ∀ k, m k = none := by
  subst hC
  have hst := hs.stored hc hI (fun _ _ _ _ _ _ hp => hp) rfl rfl rfl h0 hlive
  obtain ⟨vs,hn,hvs,hall⟩ := tree_visits hst.1
  have hgrows : ∀ (σ : Type) (f : Addr → Addr → σ → σ) (st : σ) (i j : ℕ), i ≤ j →
      Grows (applyTree s.mem t (applyWrap s) ⟨tctx,f⟩ i st) (applyTree s.mem t (applyWrap s) ⟨tctx,f⟩ j st) :=
    fun σ f st i j hij => applyTree_grows s.mem t _ _ st hij
  have hcalls : Calls (fun _ f fuel => applyTree s.mem t (applyWrap s) ⟨tctx,f⟩ fuel) (vs.map fun a => (s.data a,tctx)) :=
    calls_of_visits fun σ f st => hall _ σ (applyWrap s) ⟨tctx,f⟩ st
  exact callsEach_iff hc hI hst hgrows hn hvs hcalls

theorem cavlApply_iff (hc : IsCmp cmp) (ht : t ≠ 0) {h : AvlHeap κ} {s : Held (AvlHeap κ)}
    (hs : History (cavl cmp t) cmp (cavlNew h data t k b) s m) :
    CallsEach (fun _ f => cavlApply t s tctx f ctx) cmp m ctx ↔ tctx = ctx ∨ ∀ k, m k = none :=
  treeApply_iff hc (cavlNodes_laws hc) rfl (cavlNew_rep ht) rfl hs

theorem crbApply_iff (hc : IsCmp cmp) (ht : t ≠ 0) {h : RbHeap κ} {s : Held (RbHeap κ)}
    (hs : History (crb cmp t) cmp (crbNew h data t k b) s m) :
    CallsEach (fun _ f => crbApply t s tctx f ctx) cmp m ctx ↔ tctx = ctx ∨ ∀ k, m k = none :=
  treeApply_iff hc (crbNodes_laws hc) rfl (crbNew_rep ht) rfl hs

theorem cstApply_iff (hc : IsCmp cmp) (ht : t ≠ 0) {h : StHeap κ} {s : Held (StHeap κ)}
    (hs : History (cst cmp t) cmp (cstNew h data t k b) s m) :
    CallsEach (fun _ f => cstApply t s tctx f ctx) cmp m ctx ↔ tctx = ctx ∨ ∀ k, m k = none :=
  treeApply_iff hc (cstNodes_laws hc) rfl (cstNew_rep ht) rfl hs

end

/-- In every state that operations lead to, an apply function serves every binding once with the
context of its caller exactly when that is the context of the container, or nothing is stored. -/
theorem containers_apply (hc : IsCmp cmp) (b : Bool) (data : Addr → Addr) (tctx ctx : Addr) (m : κ → Option Addr) :
    (∀ (hash : κ → ℕ) (h : HtHeap κ) nbkts T s₀ s, (∀ a b, cmp a b = 0 → hash a = hash b) →
      chtNew h data nbkts cmp hash b = some (T,s₀) → History (cht T) cmp s₀ s m →
        (CallsEach (fun _ f => chtApply T s tctx f ctx) cmp m ctx ↔ tctx = ctx ∨ ∀ k, m k = none)) ∧
    (∀ (h : AvlHeap κ) t k s, t ≠ 0 → History (cavl cmp t) cmp (cavlNew h data t k b) s m →
      (CallsEach (fun _ f => cavlApply t s tctx f ctx) cmp m ctx ↔ tctx = ctx ∨ ∀ k, m k = none)) ∧
    (∀ (h : RbHeap κ) t k s, t ≠ 0 → History (crb cmp t) cmp (crbNew h data t k b) s m →
      (CallsEach (fun _ f => crbApply t s tctx f ctx) cmp m ctx ↔ tctx = ctx ∨ ∀ k, m k = none)) ∧
    ∀ (h : StHeap κ) t k s, t ≠ 0 → History (cst cmp t) cmp (cstNew h data t k b) s m →
      (CallsEach (fun _ f => cstApply t s tctx f ctx) cmp m ctx ↔ tctx = ctx ∨ ∀ k, m k = none) :=
  ⟨fun _ _ _ _ _ _ hh hnew hs => chtApply_iff hc hh hnew hs,fun _ _ _ _ ht hs => cavlApply_iff hc ht hs,
    fun _ _ _ _ ht hs => crbApply_iff hc ht hs,fun _ _ _ _ ht hs => cstApply_iff hc ht hs⟩

theorem history_put {τ : Type} {C : Container ℤ τ} {s : τ} {x : Option (τ × ℤ)} (hx : x.isSome) (hp : C.put s 5 9 3 2 = x)
    (hn : C.avail s 3) (hr : (x.get hx).2 ≠ -1) :
    History C (fun a b => a - b) s (x.get hx).1 (bindKey (fun a b => a - b) (fun _ => none) 5 (some 9)) := by
  obtain ⟨⟨s',r⟩,rfl⟩ := Option.isSome_iff_exists.mp hx
  have hput := History.put (.start : History C (fun a b : ℤ => a - b) s s _) (Or.inr hn) hp
  rwa [if_neg (show r ≠ -1 from hr)] at hput

def sampleBindings : ℤ → Option Addr := bindKey (fun a b => a - b) (fun _ => none) 5 (some 9)

theorem sampleBindings_five : ¬∀ k, sampleBindings k = none := fun h => absurd (h 5) (by decide)

theorem samplePut₁_history : History (cht sampleTable) (fun a b => a - b) (sampleCht.get sampleCht_isSome).2
    (samplePut₁.get samplePut₁_isSome).1 sampleBindings :=
  history_put samplePut₁_isSome rfl ⟨three_ne_zero,id,Finset.notMem_empty 3⟩ (by decide)

theorem samplePut₂_history : History (cavl (fun a b => a - b) 1) (fun a b => a - b) sampleCavl
    (samplePut₂.get samplePut₂_isSome).1 sampleBindings :=
  history_put samplePut₂_isSome rfl ⟨three_ne_zero,(by decide : ¬(3 : ℕ) = 1),Finset.notMem_empty 3⟩ (by decide)

theorem samplePut₃_history : History (crb (fun a b => a - b) 1) (fun a b => a - b) sampleCrb
    (samplePut₃.get samplePut₃_isSome).1 sampleBindings :=
  history_put samplePut₃_isSome rfl ⟨three_ne_zero,(by decide : ¬(3 : ℕ) = 1),Finset.notMem_empty 3⟩ (by decide)

theorem samplePut₄_history : History (cst (fun a b => a - b) 1) (fun a b => a - b) sampleCst
    (samplePut₄.get samplePut₄_isSome).1 sampleBindings :=
  history_put samplePut₄_isSome rfl ⟨three_ne_zero,(by decide : ¬(3 : ℕ) = 1),Finset.notMem_empty 3⟩ (by decide)

theorem sample_hash : ∀ a b : ℤ, a - b = 0 → a.toNat = b.toNat := fun _ _ h => congrArg _ (sub_eq_zero.mp h)

theorem containers_apply_sample :
    CallsEach (fun _ f => chtApply sampleTable (samplePut₁.get samplePut₁_isSome).1 4 f 4) (fun a b => a - b) sampleBindings 4 ∧
    CallsEach (fun _ f => cstApply 1 (samplePut₄.get samplePut₄_isSome).1 4 f 4) (fun a b => a - b) sampleBindings 4 := by
  have h := containers_apply isCmp_sub false (fun _ => 0) 4 4 sampleBindings
  exact ⟨(h.1 _ _ _ _ _ _ sample_hash (Option.some_get sampleCht_isSome).symm samplePut₁_history).mpr (Or.inl rfl),
    (h.2.2.2 _ _ _ _ one_ne_zero samplePut₄_history).mpr (Or.inl rfl)⟩

/-- The containers were created with the context 4; the caller passes 8. -/
theorem containers_apply_other :
    ¬CallsEach (fun _ f => chtApply sampleTable (samplePut₁.get samplePut₁_isSome).1 4 f 8) (fun a b => a - b) sampleBindings 8 ∧
    ¬CallsEach (fun _ f => cavlApply 1 (samplePut₂.get samplePut₂_isSome).1 4 f 8) (fun a b => a - b) sampleBindings 8 ∧
    ¬CallsEach (fun _ f => crbApply 1 (samplePut₃.get samplePut₃_isSome).1 4 f 8) (fun a b => a - b) sampleBindings 8 ∧
    ¬CallsEach (fun _ f => cstApply 1 (samplePut₄.get samplePut₄_isSome).1 4 f 8) (fun a b => a - b) sampleBindings 8 := by
  have hno : ¬(4 = 8 ∨ ∀ k, sampleBindings k = none) := not_or.mpr ⟨by decide,sampleBindings_five⟩
  exact ⟨(chtApply_iff isCmp_sub sample_hash (Option.some_get sampleCht_isSome).symm samplePut₁_history).not.mpr hno,
    (cavlApply_iff isCmp_sub one_ne_zero samplePut₂_history).not.mpr hno,
    (crbApply_iff isCmp_sub one_ne_zero samplePut₃_history).not.mpr hno,
    (cstApply_iff isCmp_sub one_ne_zero samplePut₄_history).not.mpr hno⟩

end Catlib.Container
