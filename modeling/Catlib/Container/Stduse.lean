import Catlib.Container.Nodes
import Catlib.Hash.Table
import Catlib.Tree.AvlRuns
import Catlib.Tree.RedBlackRuns
import Catlib.Tree.SplayMove

/-! # The containers of stduse.c

The chained hash table, the AVL, the red-black and the splay container, each over its
own intrusive structure. Started empty and given the same operations they give the
same answers, those of a map from keys to the data put last.
-/
namespace Catlib.Container
open Linked Keyed Hash Avl RedBlack Splay

variable {κ : Type} {cmp : κ → κ → ℤ} {t : Addr} {T : Htab κ} {S : Finset Addr}

/-! ## The hash table container -/

def chtNodes (T : Htab κ) : Intrusive (HtHeap κ) ℕ κ where
  seek h key fuel := do
    let (hn,hv) ← htLkup T h key fuel
    if hn ≠ 0 then return (h,.inl hn) else return (h,.inr hv)
  ninit := htNinit
  ins h n hv _ := htIns T h n hv
  rem h n _ := htRem h n
  own _ := False

/-- `cht_new` after its allocations: the data fields of the nodes to come are arbitrary. -/
def chtNew (h : HtHeap κ) (data : Addr → Addr) (nbkts : ℕ) (cmp : κ → κ → ℤ) (hash : κ → ℕ) (abortOnFail : Bool) :
    Option (Htab κ × Held (HtHeap κ)) :=
  (htInit h nbkts cmp hash).map (fun r => (r.1,⟨r.2,data,∅,abortOnFail⟩))

/-- `cht_put`, which alone insists on data that is not null. -/
def chtPut (T : Htab κ) (s : Held (HtHeap κ)) (key : κ) (data n : Addr) (fuel : ℕ) : Option (Held (HtHeap κ) × ℤ) :=
  if data = 0 then none else putNode (chtNodes T) s key data n fuel

def chtGet (T : Htab κ) (s : Held (HtHeap κ)) (key : κ) (fuel : ℕ) : Option (Held (HtHeap κ) × Addr) :=
  getNode (chtNodes T) s key fuel

def chtDel (T : Htab κ) (s : Held (HtHeap κ)) (key : κ) (fuel : ℕ) : Option (Held (HtHeap κ) × Addr) :=
  delNode (chtNodes T) s key fuel

def cht (T : Htab κ) : Container κ (Held (HtHeap κ)) := ⟨chtPut T,chtGet T,chtDel T,Held.Avail (chtNodes T)⟩

theorem chtNodes_laws (hc : IsCmp T.cmp) (hh : ∀ a b, T.cmp a b = 0 → T.hash a = T.hash b) :
    Laws (chtNodes T) T.cmp HtHeap.keys (fun h S => IsTable T h S) (fun _ k hv => hv = T.hash k) where
  seek := by
    intro h S k hok
    obtain ⟨fuel,a,hl,⟨rfl,habs⟩ | ⟨ha,hk⟩⟩ := htLkup_spec hok hh k
    · exact ⟨fuel,h,.inr (T.hash k),by simp [chtNodes, hl],hok,rfl,
        Or.inr ⟨_,rfl,fun x hx h0 => habs x hx (hc.eq_swap h0),rfl⟩⟩
    · have ha0 : a ≠ 0 := by
        obtain ⟨hT,⟨B,hB⟩,-⟩ := hok
        exact hB.ne_zero hT ha
      exact ⟨fuel,h,.inl a,by simp [chtNodes, hl, ha0],hok,rfl,Or.inl ⟨a,rfl,ha,hc.eq_swap hk⟩⟩
  ins := by
    rintro h S k l n ⟨hT,⟨B,hB⟩,hinj⟩ hn0 - hn habs rfl
    have hne : ∀ x ∈ S, (htNinit h n k).node x = h.node x := by
      intro x hx
      exact if_neg (by rintro rfl; exact hn hx)
    have hk : ((htNinit h n k).node n).key = k := by simp [htNinit, HtHeap.put]
    have hB' : Chained T (htNinit h n k) B S := by
      have hin : ∀ i < T.nbkts, ∀ x ∈ B i, (htNinit h n k).node x = h.node x :=
        fun i hi x hx => hne x (hB.mem i hi x hx).1
      refine ⟨fun i hi => (hB.chain i hi).congr ?_ ?_,hB.nodup,fun x hx => ?_,fun i hi x hx => ?_⟩
      · rintro (j | x) hx
        · rfl
        · exact congrArg HNode.next (hin i hi x (by simpa using hx))
      · exact fun x hx => congrArg HNode.prevp (hin i hi x hx)
      · rw [hne x hx]
        exact hB.bucket x hx
      · rw [hin i hi x hx]
        exact hB.mem i hi x hx
    have hok : IsTable T (htNinit h n k) S := by
      refine ⟨hT,⟨B,hB'⟩,fun a ha b hb h0 => hinj a ha b hb ?_⟩
      rwa [hne a ha,hne b hb] at h0
    obtain ⟨h',hi,hkey,ht⟩ := htIns_spec hok (fun a b => hc.eq_swap) hn0 hn (fun x hx h0 => by
      rw [hne x hx,hk] at h0
      exact habs x hx (hc.eq_swap h0))
    refine ⟨0,h',by rwa [hk] at hi,?_,?_,fun x hx => ?_⟩
    · rwa [Finset.coe_insert]
    · exact (congrFun hkey n).trans hk
    · exact (congrFun hkey x).trans (congrArg HNode.key (hne x hx))
  rem := by
    intro h S a hok ha
    obtain ⟨h',hr,hkey,ht⟩ := htRem_spec hok ha
    exact ⟨0,h',hr,by rwa [Finset.coe_erase],hkey⟩
  inj := fun hok ha hb => hok.2.2 _ ha _ hb
  seek_grows h k i j hij := Grows.bind (htLkup_grows T h k hij) (fun _ => .refl _)
  ins_grows _ _ _ _ _ _ := .refl _
  rem_grows _ _ _ _ _ := .refl _

/-! ## The tree containers -/

/-- The AVL and the red-black container find the place of a new key while they look it up. -/
def treeNodes {δ : Type} (cmp : κ → κ → ℤ) (t : Addr) (ninit : Heap δ κ → Addr → κ → Heap δ κ)
    (ins : Heap δ κ → Addr → Addr → Dir → ℕ → Option (Heap δ κ × Addr)) (rem : Heap δ κ → Addr → ℕ → Option (Heap δ κ)) :
    Intrusive (Heap δ κ) (Addr × Dir) κ where
  seek h key fuel := do
    let (p,dir) ← findloc cmp h t key fuel
    if dir = .N then return (h,.inl p) else return (h,.inr (p,dir))
  ninit := ninit
  ins h n p fuel := (ins h n p.1 p.2 fuel).map Prod.fst
  rem := rem
  own a := a = t

theorem prepare_node {δ : Type} {P : LTree δ → Prop} {h : Heap δ κ} {n : Addr} {x : Node δ κ} {k : κ}
    (ht : IsSearchTree P cmp h t S) (hn0 : n ≠ 0) (hnt : n ≠ t) (hn : n ∉ S) (hl : x.pL = 0) (hr : x.pR = 0)
    (hk : x.key = k) :
    IsSearchTree P cmp (h.put n x) t S ∧ Fresh (h.put n x) t S n ∧ (h.put n x n).key = k ∧
      (∀ y ∈ S, (h.put n x y).key = (h y).key) ∧
      ∀ key fuel, findloc cmp (h.put n x) t key fuel = findloc cmp h t key fuel := by
  have hf : ∀ y, y = t ∨ y ∈ (S : Set Addr) → h.put n x y = h y := by
    rintro y (rfl | hy)
    · exact Heap.put_of_ne hnt.symm
    · exact Heap.put_of_ne (by rintro rfl; exact hn hy)
  refine ⟨ht.frame hf,⟨hn0,hnt,hn,by simp [hl],by simp [hr]⟩,by simp [hk],fun y hy => ?_,ht.findloc_congr hf⟩
  rw [hf y (Or.inr hy)]

theorem treeNodes_laws {δ : Type} {P : LTree δ → Prop} {ninit : Heap δ κ → Addr → κ → Heap δ κ}
    {ins : Heap δ κ → Addr → Addr → Dir → ℕ → Option (Heap δ κ × Addr)} {rem : Heap δ κ → Addr → ℕ → Option (Heap δ κ)}
    (hc : IsCmp cmp) (d : δ)
    (hninit : ∀ h n k, ∃ pd, ninit h n k = h.put n { h n with pL := 0, pP := 0, pR := 0, pdir := pd, dat := d, key := k })
    (hins : ∀ {h : Heap δ κ} {S : Set Addr} {n loc dir}, IsSearchTree P cmp h t S → Fresh h t S n → (h n).dat = d →
      (∀ x ∈ S, cmp (h n).key (h x).key ≠ 0) → LocOk cmp h t (h n).key loc dir →
      ∃ fuel h' p, ins h n loc dir fuel = some (h',p) ∧ h'.keys = h.keys ∧ IsSearchTree P cmp h' t (insert n S))
    (hrem : ∀ {h : Heap δ κ} {S : Set Addr} {a}, IsSearchTree P cmp h t S → a ∈ S →
      ∃ fuel h', rem h a fuel = some h' ∧ h'.keys = h.keys ∧ IsSearchTree P cmp h' t (S \ {a}))
    (hig : ∀ h n loc dir i j, i ≤ j → Grows (ins h n loc dir i) (ins h n loc dir j))
    (hrg : ∀ h a i j, i ≤ j → Grows (rem h a i) (rem h a j)) :
    Laws (treeNodes cmp t ninit ins rem) cmp Heap.keys (fun h S => IsSearchTree P cmp h t S)
      (fun h k p => p.2 ≠ .N ∧ ∃ fuel, findloc cmp h t k fuel = some p) where
  seek := by
    intro h S k hok
    obtain ⟨fuel,a,dir,hl,⟨hd,habs,-⟩ | ⟨rfl,ha,hk⟩⟩ := hok.findloc hc k
    · exact ⟨fuel,h,.inr (a,dir),by simp [treeNodes, hl, hd],hok,rfl,Or.inr ⟨_,rfl,habs,hd,fuel,hl⟩⟩
    · exact ⟨fuel,h,.inl a,by simp [treeNodes, hl],hok,rfl,Or.inl ⟨a,rfl,ha,hk⟩⟩
  ins := by
    rintro h S k ⟨loc,dir⟩ n hok hn0 hnt hn habs ⟨hd,f,hl⟩
    obtain ⟨pd,he⟩ := hninit h n k
    obtain ⟨hok',hfr,hkn,hko,hfl⟩ := prepare_node (h := h) (n := n) (k := k)
      (x := { h n with pL := 0, pP := 0, pR := 0, pdir := pd, dat := d, key := k }) hok hn0 hnt hn rfl rfl rfl
    rw [← he] at hok' hfr hkn hko hfl
    obtain ⟨fuel,h',p,hi,hkey,ht⟩ := hins hok' hfr (by simp [he]) (fun x hx => by
      rw [hkn,hko x hx]
      exact habs x hx) (show LocOk cmp _ t _ loc dir from Or.inr ⟨hd,f,by rw [hkn,hfl,hl]⟩)
    refine ⟨fuel,h',by simp [treeNodes, hi],by rwa [Finset.coe_insert],?_,fun x hx => ?_⟩
    · exact (congrFun hkey n).trans hkn
    · exact (congrFun hkey x).trans (hko x hx)
  rem := by
    intro h S a hok ha
    obtain ⟨fuel,h',hr,hkey,ht⟩ := hrem hok ha
    exact ⟨fuel,h',hr,by rwa [Finset.coe_erase],hkey⟩
  inj := fun hok ha hb => hok.key_inj hc ha hb
  seek_grows h k i j hij := Grows.bind (findloc_grows cmp h t k hij) (fun _ => .refl _)
  ins_grows h n l i j hij := by
    simp only [treeNodes, Option.map_eq_bind]
    exact Grows.bind (hig _ _ _ _ _ _ hij) (fun _ => .refl _)
  rem_grows h n i j hij := hrg h n i j hij

def cavlNodes (cmp : κ → κ → ℤ) (t : Addr) : Intrusive (AvlHeap κ) (Addr × Dir) κ :=
  treeNodes cmp t avlNinit (fun h n loc dir => avlIns cmp h t n loc dir) avlRem

def cavlNew (h : AvlHeap κ) (data : Addr → Addr) (t : Addr) (k : κ) (abortOnFail : Bool) : Held (AvlHeap κ) :=
  ⟨avlInit h t k,data,∅,abortOnFail⟩

def cavlPut (cmp : κ → κ → ℤ) (t : Addr) (s : Held (AvlHeap κ)) (key : κ) (data n : Addr) (fuel : ℕ) :
    Option (Held (AvlHeap κ) × ℤ) := putNode (cavlNodes cmp t) s key data n fuel

def cavlGet (cmp : κ → κ → ℤ) (t : Addr) (s : Held (AvlHeap κ)) (key : κ) (fuel : ℕ) :
    Option (Held (AvlHeap κ) × Addr) := getNode (cavlNodes cmp t) s key fuel

def cavlDel (cmp : κ → κ → ℤ) (t : Addr) (s : Held (AvlHeap κ)) (key : κ) (fuel : ℕ) :
    Option (Held (AvlHeap κ) × Addr) := delNode (cavlNodes cmp t) s key fuel

def cavl (cmp : κ → κ → ℤ) (t : Addr) : Container κ (Held (AvlHeap κ)) :=
  ⟨cavlPut cmp t,cavlGet cmp t,cavlDel cmp t,Held.Avail (cavlNodes cmp t)⟩

theorem cavlNodes_laws (hc : IsCmp cmp) :
    Laws (cavlNodes cmp t) cmp Heap.keys (fun h S => IsAvlTree cmp h t S)
      (fun h k p => p.2 ≠ .N ∧ ∃ fuel, findloc cmp h t k fuel = some p) := by
  refine treeNodes_laws hc 0 (fun _ _ _ => ⟨.P,rfl⟩) ?_ (fun ht ha => avlRem_isAvlTree ht ha) ?_ ?_
  · intro h S n loc dir ht hn hb habs hl
    obtain ⟨fuel,h',hi,hr⟩ := avlIns_spec hc ht hn hb habs hl
    exact ⟨fuel,h',0,hi,hr⟩
  · exact fun h n loc dir i j hij => avlIns_grows hij n loc dir
  · exact fun h a i j hij => avlRem_grows hij a

def crbNodes (cmp : κ → κ → ℤ) (t : Addr) : Intrusive (RbHeap κ) (Addr × Dir) κ :=
  treeNodes cmp t rbNinit (fun h n loc dir => rbIns cmp h t n loc dir) rbRem

def crbNew (h : RbHeap κ) (data : Addr → Addr) (t : Addr) (k : κ) (abortOnFail : Bool) : Held (RbHeap κ) :=
  ⟨rbInit h t k,data,∅,abortOnFail⟩

def crbPut (cmp : κ → κ → ℤ) (t : Addr) (s : Held (RbHeap κ)) (key : κ) (data n : Addr) (fuel : ℕ) :
    Option (Held (RbHeap κ) × ℤ) := putNode (crbNodes cmp t) s key data n fuel

def crbGet (cmp : κ → κ → ℤ) (t : Addr) (s : Held (RbHeap κ)) (key : κ) (fuel : ℕ) :
    Option (Held (RbHeap κ) × Addr) := getNode (crbNodes cmp t) s key fuel

def crbDel (cmp : κ → κ → ℤ) (t : Addr) (s : Held (RbHeap κ)) (key : κ) (fuel : ℕ) :
    Option (Held (RbHeap κ) × Addr) := delNode (crbNodes cmp t) s key fuel

def crb (cmp : κ → κ → ℤ) (t : Addr) : Container κ (Held (RbHeap κ)) :=
  ⟨crbPut cmp t,crbGet cmp t,crbDel cmp t,Held.Avail (crbNodes cmp t)⟩

theorem crbNodes_laws (hc : IsCmp cmp) :
    Laws (crbNodes cmp t) cmp Heap.keys (fun h S => IsRbTree cmp h t S)
      (fun h k p => p.2 ≠ .N ∧ ∃ fuel, findloc cmp h t k fuel = some p) := by
  refine treeNodes_laws hc .red (fun _ _ _ => ⟨.L,rfl⟩) ?_ (fun ht ha => rbRem_isRbTree ht ha) ?_ ?_
  · intro h S n loc dir ht hn _ habs hl
    obtain ⟨fuel,h',p,hi,hkey,hp,hr⟩ := rbIns_spec hc ht hn hl
    obtain rfl : p = 0 := by
      rcases hp with ⟨rfl,-⟩ | ⟨hp,h0⟩
      · rfl
      · exact absurd h0 (habs p hp)
    exact ⟨fuel,h',0,hi,hkey,by rwa [Set.sdiff_singleton_eq_self ht.zero_notin] at hr⟩
  · exact fun h n loc dir i j hij => rbIns_grows hij n loc dir
  · exact fun h a i j hij => rbRem_grows hij a

/-! ## The splay tree container -/

def cstNodes (cmp : κ → κ → ℤ) (t : Addr) : Intrusive (StHeap κ) Unit κ where
  seek h key fuel := do
    let (h,sn) ← stLkup cmp h t key fuel
    if sn ≠ 0 then return (h,.inl sn) else return (h,.inr ())
  ninit := stNinit
  ins h n _ fuel := (stIns cmp h t n fuel).map Prod.fst
  rem := stRem
  own a := a = t

def cstNew (h : StHeap κ) (data : Addr → Addr) (t : Addr) (k : κ) (abortOnFail : Bool) : Held (StHeap κ) :=
  ⟨stInit h t k,data,∅,abortOnFail⟩

def cstPut (cmp : κ → κ → ℤ) (t : Addr) (s : Held (StHeap κ)) (key : κ) (data n : Addr) (fuel : ℕ) :
    Option (Held (StHeap κ) × ℤ) := putNode (cstNodes cmp t) s key data n fuel

def cstGet (cmp : κ → κ → ℤ) (t : Addr) (s : Held (StHeap κ)) (key : κ) (fuel : ℕ) :
    Option (Held (StHeap κ) × Addr) := getNode (cstNodes cmp t) s key fuel

def cstDel (cmp : κ → κ → ℤ) (t : Addr) (s : Held (StHeap κ)) (key : κ) (fuel : ℕ) :
    Option (Held (StHeap κ) × Addr) := delNode (cstNodes cmp t) s key fuel

def cst (cmp : κ → κ → ℤ) (t : Addr) : Container κ (Held (StHeap κ)) :=
  ⟨cstPut cmp t,cstGet cmp t,cstDel cmp t,Held.Avail (cstNodes cmp t)⟩

theorem cstNodes_laws (hc : IsCmp cmp) :
    Laws (cstNodes cmp t) cmp Heap.keys (fun h S => IsStTree cmp h t S) (fun _ _ _ => True) where
  seek := by
    intro h S k hok
    obtain ⟨fuel,h',a,hl,hkey,hok',-,⟨rfl,habs⟩ | ⟨ha,hk⟩⟩ := stLkup_spec hc hok k
    · exact ⟨fuel,h',.inr (),by simp [cstNodes, hl],hok',hkey,Or.inr ⟨_,rfl,habs,trivial⟩⟩
    · have ha0 : a ≠ 0 := by rintro rfl; exact hok.zero_notin ha
      exact ⟨fuel,h',.inl a,by simp [cstNodes, hl, ha0],hok',hkey,Or.inl ⟨a,rfl,ha,hk⟩⟩
  ins := by
    rintro h S k l n hok hn0 hnt hn habs -
    obtain ⟨hok',hfr,hkn,hko,-⟩ := prepare_node (h := h) (n := n) (k := k)
      (x := { h n with pL := 0, pP := 0, pR := 0, pdir := .N, key := k }) hok hn0 hnt hn rfl rfl rfl
    obtain ⟨fuel,h',hi,hkey,ht⟩ := stIns_spec hc hok' hfr (fun x hx => by
      rw [hkn,hko x hx]
      exact habs x hx)
    refine ⟨fuel,h',by simp [cstNodes, stNinit, hi],by rwa [Finset.coe_insert],?_,fun x hx => ?_⟩
    · exact (congrFun hkey n).trans hkn
    · exact (congrFun hkey x).trans (hko x hx)
  rem := by
    intro h S a hok ha
    obtain ⟨fuel,h',hr,hkey,ht,-⟩ := stRem_spec hok ha
    exact ⟨fuel,h',hr,by rwa [Finset.coe_erase],hkey⟩
  inj := fun hok ha hb => hok.key_inj hc ha hb
  seek_grows h k i j hij := Grows.bind (stLkup_grows hij h t k) (fun _ => .refl _)
  ins_grows h n l i j hij := by
    simp only [cstNodes, Option.map_eq_bind]
    exact Grows.bind (stIns_grows hij h t n) (fun _ => .refl _)
  rem_grows h n i j hij := stRem_grows hij h n

/-! ## All four -/

/-- A container state holds exactly the nodes its structure reaches, and they stand for the map. -/
abbrev ChtRep (T : Htab κ) := Rep T.cmp HtHeap.keys (fun h S => IsTable T h S)
abbrev CavlRep (cmp : κ → κ → ℤ) (t : Addr) := Rep cmp (H := AvlHeap κ) Heap.keys (fun h S => IsAvlTree cmp h t S)
abbrev CrbRep (cmp : κ → κ → ℤ) (t : Addr) := Rep cmp (H := RbHeap κ) Heap.keys (fun h S => IsRbTree cmp h t S)
abbrev CstRep (cmp : κ → κ → ℤ) (t : Addr) := Rep cmp (H := StHeap κ) Heap.keys (fun h S => IsStTree cmp h t S)

theorem cht_implements (hc : IsCmp T.cmp) (hh : ∀ a b, T.cmp a b = 0 → T.hash a = T.hash b) :
    Implements (cht T) T.cmp (ChtRep T) := by
  have hI := nodes_implement hc (chtNodes_laws hc hh)
  refine ⟨fun k v n hs hn hv => ?_,hI.get,hI.del,?_,hI.get_grows,hI.del_grows⟩
  · simpa only [cht, chtPut, hv, if_false] using hI.put k hs hn hv
  · exact fun s k v n i j hij => Grows.ite (.refl _) (hI.put_grows s k v n i j hij)

theorem cavl_implements (hc : IsCmp cmp) : Implements (cavl cmp t) cmp (CavlRep cmp t) :=
  nodes_implement hc (cavlNodes_laws hc)

theorem crb_implements (hc : IsCmp cmp) : Implements (crb cmp t) cmp (CrbRep cmp t) :=
  nodes_implement hc (crbNodes_laws hc)

theorem cst_implements (hc : IsCmp cmp) : Implements (cst cmp t) cmp (CstRep cmp t) :=
  nodes_implement hc (cstNodes_laws hc)

section
variable {hash : κ → ℕ} {nbkts : ℕ} {b : Bool} {data : Addr → Addr} {k : κ}

theorem chtNew_rep {h : HtHeap κ} {s : Held (HtHeap κ)} (hn : chtNew h data nbkts cmp hash b = some (T,s)) :
    T.cmp = cmp ∧ T.hash = hash ∧ ChtRep T s (fun _ => 0) := by
  simp only [chtNew, Option.map_eq_some_iff, Prod.mk.injEq] at hn
  obtain ⟨r,hi,rfl,rfl⟩ := hn
  obtain ⟨hc,hh,ht⟩ := isTable_init hi
  exact ⟨hc,hh,by simpa using ht,denotes_empty⟩

theorem cavlNew_rep {h : AvlHeap κ} (ht : t ≠ 0) : CavlRep cmp t (cavlNew h data t k b) (fun _ => 0) :=
  ⟨by simpa [cavlNew] using isAvlTree_init ht,denotes_empty⟩

theorem crbNew_rep {h : RbHeap κ} (ht : t ≠ 0) : CrbRep cmp t (crbNew h data t k b) (fun _ => 0) :=
  ⟨by simpa [crbNew] using isRbTree_init ht,denotes_empty⟩

theorem cstNew_rep {h : StHeap κ} (ht : t ≠ 0) : CstRep cmp t (cstNew h data t k b) (fun _ => 0) :=
  ⟨by simpa [cstNew] using isStTree_init ht,denotes_empty⟩

end

/-- The same operations applied to four new containers get the same answers from all of
them, those of the abstract map; all four end up standing for the same map, every further
operation comes back, and none of them changes the value of another key. -/
theorem containers_agree (hc : IsCmp cmp) {hash : κ → ℕ} (hh : ∀ a b, cmp a b = 0 → hash a = hash b)
    {m₁ : HtHeap κ} {m₂ : AvlHeap κ} {m₃ : RbHeap κ} {m₄ : StHeap κ} {d₁ d₂ d₃ d₄ : Addr → Addr} {nbkts : ℕ}
    {t₂ t₃ t₄ : Addr} {k₂ k₃ k₄ : κ} {b : Bool} {s₁ s₁' : Held (HtHeap κ)} {s₂' : Held (AvlHeap κ)}
    {s₃' : Held (RbHeap κ)} {s₄' : Held (StHeap κ)} (hT : chtNew m₁ d₁ nbkts cmp hash b = some (T,s₁))
    (h₂ : t₂ ≠ 0) (h₃ : t₃ ≠ 0) (h₄ : t₄ ≠ 0) {ops : List (Op κ)} (hops : ∀ op ∈ ops, op.NonNull)
    {rs₁ rs₂ rs₃ rs₄ : List Ans} (r₁ : Run (cht T) s₁ ops rs₁ s₁')
    (r₂ : Run (cavl cmp t₂) (cavlNew m₂ d₂ t₂ k₂ b) ops rs₂ s₂')
    (r₃ : Run (crb cmp t₃) (crbNew m₃ d₃ t₃ k₃ b) ops rs₃ s₃')
    (r₄ : Run (cst cmp t₄) (cstNew m₄ d₄ t₄ k₄ b) ops rs₄ s₄') :
    (rs₁ = answers cmp (fun _ => 0) ops ∧ rs₂ = answers cmp (fun _ => 0) ops ∧
      rs₃ = answers cmp (fun _ => 0) ops ∧ rs₄ = answers cmp (fun _ => 0) ops) ∧
    (ChtRep T s₁' (outcome cmp (fun _ => 0) ops) ∧ CavlRep cmp t₂ s₂' (outcome cmp (fun _ => 0) ops) ∧
      CrbRep cmp t₃ s₃' (outcome cmp (fun _ => 0) ops) ∧ CstRep cmp t₄ s₄' (outcome cmp (fun _ => 0) ops)) ∧
    (∀ op : Op κ, op.NonNull →
      ((∃ n, (cht T).avail s₁' n) → ∃ r s, Step (cht T) s₁' op r s) ∧
      ((∃ n, (cavl cmp t₂).avail s₂' n) → ∃ r s, Step (cavl cmp t₂) s₂' op r s) ∧
      ((∃ n, (crb cmp t₃).avail s₃' n) → ∃ r s, Step (crb cmp t₃) s₃' op r s) ∧
      ((∃ n, (cst cmp t₄).avail s₄' n) → ∃ r s, Step (cst cmp t₄) s₄' op r s)) ∧
    ∀ op : Op κ, ∀ k, cmp k op.key ≠ 0 →
      outcome cmp (fun _ => 0) (ops ++ [op]) k = outcome cmp (fun _ => 0) ops k := by
  obtain ⟨rfl,rfl,hR₁⟩ := chtNew_rep hT
  have i₁ := cht_implements hc hh
  have i₂ := cavl_implements (t := t₂) hc
  have i₃ := crb_implements (t := t₃) hc
  have i₄ := cst_implements (t := t₄) hc
  obtain ⟨a₁,q₁⟩ := i₁.run r₁ hR₁ hops
  obtain ⟨a₂,q₂⟩ := i₂.run r₂ (cavlNew_rep h₂) hops
  obtain ⟨a₃,q₃⟩ := i₃.run r₃ (crbNew_rep h₃) hops
  obtain ⟨a₄,q₄⟩ := i₄.run r₄ (cstNew_rep h₄) hops
  refine ⟨⟨a₁,a₂,a₃,a₄⟩,⟨q₁,q₂,q₃,q₄⟩,fun op hop => ?_,fun op k hk => ?_⟩
  · exact ⟨fun ha => i₁.progress q₁ ha hop,fun ha => i₂.progress q₂ ha hop,fun ha => i₃.progress q₃ ha hop,
      fun ha => i₄.progress q₄ ha hop⟩
  · rw [outcome,List.foldl_append]
    exact effect_other hk

/-! A table with three buckets and three trees with their sentinel at 1 take one `put`. -/

def sampleCht : Option (Htab ℤ × Held (HtHeap ℤ)) :=
  chtNew ⟨fun _ => 7,fun _ => ⟨7,none,0⟩⟩ (fun _ => 0) 3 (fun a b => a - b) Int.toNat false

def sampleCavl : Held (AvlHeap ℤ) := cavlNew (fun _ => ⟨0,0,0,.L,0,0,0⟩) (fun _ => 0) 1 0 false
def sampleCrb : Held (RbHeap ℤ) := crbNew (fun _ => ⟨0,0,0,.L,.red,0,0⟩) (fun _ => 0) 1 0 false
def sampleCst : Held (StHeap ℤ) := cstNew (fun _ => ⟨0,0,0,.L,(),0,0⟩) (fun _ => 0) 1 0 false

theorem sampleCht_isSome : sampleCht.isSome := by decide

abbrev sampleTable : Htab ℤ := (sampleCht.get sampleCht_isSome).1

def samplePut₁ := chtPut sampleTable (sampleCht.get sampleCht_isSome).2 5 9 3 2
def samplePut₂ := cavlPut (fun a b => a - b) 1 sampleCavl 5 9 3 2
def samplePut₃ := crbPut (fun a b => a - b) 1 sampleCrb 5 9 3 2
def samplePut₄ := cstPut (fun a b => a - b) 1 sampleCst 5 9 3 2

theorem samplePut₁_isSome : samplePut₁.isSome := by decide
theorem samplePut₂_isSome : samplePut₂.isSome := by decide
theorem samplePut₃_isSome : samplePut₃.isSome := by decide
theorem samplePut₄_isSome : samplePut₄.isSome := by decide

theorem run_put {σ : Type} {C : Container ℤ σ} {s : σ} {k : ℤ} {x : Option (σ × ℤ)} (hx : x.isSome)
    (hp : C.put s k 9 3 2 = x) (hn : C.avail s 3) : Run C s [.put k 9] [.code (x.get hx).2] (x.get hx).1 :=
  .cons (.put hn (hp.trans (Option.some_get hx).symm)) (.nil _)

theorem containers_agree_sample :
    (samplePut₁.get samplePut₁_isSome).2 = 0 ∧ (samplePut₄.get samplePut₄_isSome).2 = 0 := by
  have hne : ¬(3 : ℕ) = 1 := by decide
  have hh : ∀ a b : ℤ, a - b = 0 → a.toNat = b.toNat := fun a b h => congrArg _ (sub_eq_zero.mp h)
  have hops : ∀ op ∈ [Op.put (5 : ℤ) 9], op.NonNull := by simp [Op.NonNull]
  have h := (containers_agree isCmp_sub hh (Option.some_get sampleCht_isSome).symm one_ne_zero one_ne_zero
    one_ne_zero hops
    (run_put samplePut₁_isSome rfl ⟨three_ne_zero,id,Finset.notMem_empty 3⟩)
    (run_put samplePut₂_isSome rfl ⟨three_ne_zero,hne,Finset.notMem_empty 3⟩)
    (run_put samplePut₃_isSome rfl ⟨three_ne_zero,hne,Finset.notMem_empty 3⟩)
    (run_put samplePut₄_isSome rfl ⟨three_ne_zero,hne,Finset.notMem_empty 3⟩)).1
  simpa [answers, Op.answer] using And.intro h.1 h.2.2.2

end Catlib.Container
