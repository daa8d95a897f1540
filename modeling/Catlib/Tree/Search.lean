import Catlib.Logic.Compare
import Catlib.Logic.Loop
import Catlib.Tree.Zip
import Mathlib.Tactic.Linarith

/-! # Search in heap trees

The descent from the sentinel either meets an equal key or ends at the one empty slot
where the key can go without breaking the order.
-/
namespace Catlib.Linked

variable {δ κ : Type*} {h h' : Heap δ κ} {root : Addr} {c : Spine δ} {t : LTree δ}

/-- The keys stored in the heap. -/
def Heap.keys (h : Heap δ κ) : Addr → κ := fun x => (h x).key

theorem Keeps.keys {S : List Addr} (hk : Keeps h h' S) : h'.keys = h.keys := funext hk.key

@[simp] theorem setDat_keys (h : Heap δ κ) (a : Addr) (d : δ) : (setDat h a d).keys = h.keys := by
  funext x
  by_cases hx : x = a
  · subst hx; simp [Heap.keys, setDat]
  · simp [Heap.keys, setDat, Heap.put_of_ne hx]

@[simp] theorem setTree_keys (h : Heap δ κ) (a v : Addr) : (setTree h a v).keys = h.keys := by
  funext x
  by_cases hx : x = a
  · subst hx; simp [Heap.keys, setTree]
  · simp [Heap.keys, setTree, Heap.put_of_ne hx]

/-- Keys strictly increase along the list. -/
def Sorted (cmp : κ → κ → ℤ) (key : Addr → κ) (xs : List Addr) : Prop :=
  xs.Pairwise (fun a b => cmp (key a) (key b) < 0)

/-- Every key of the list is below, or above, the given key. -/
def Below (cmp : κ → κ → ℤ) (key : Addr → κ) (xs : List Addr) (k : κ) : Prop :=
  ∀ x ∈ xs, cmp (key x) k < 0
def Beyond (cmp : κ → κ → ℤ) (key : Addr → κ) (xs : List Addr) (k : κ) : Prop :=
  ∀ x ∈ xs, cmp k (key x) < 0

section Sorted
variable {cmp : κ → κ → ℤ} {key : Addr → κ} {xs ys : List Addr}

theorem sorted_append_cons {n : Addr} :
    Sorted cmp key (xs ++ n :: ys) ↔
      Sorted cmp key (xs ++ ys) ∧ Below cmp key xs (key n) ∧ Beyond cmp key ys (key n) := by
  simp only [Sorted, Below, Beyond, List.pairwise_append, List.pairwise_cons, List.mem_cons]
  constructor
  · rintro ⟨h1,⟨h2,h3⟩,h4⟩
    exact ⟨⟨h1,h3,fun a ha b hb => h4 a ha b (Or.inr hb)⟩,fun x hx => h4 x hx n (Or.inl rfl),h2⟩
  · rintro ⟨⟨h1,h2,h3⟩,h4,h5⟩
    refine ⟨h1,⟨h5,h2⟩,?_⟩
    rintro a ha b (rfl | hb)
    · exact h4 a ha
    · exact h3 a ha b hb

theorem Sorted.replace (hc : IsCmp cmp) {a n : Addr} (hs : Sorted cmp key (xs ++ a :: ys))
    (he : cmp (key n) (key a) = 0) : Sorted cmp key (xs ++ n :: ys) := by
  rw [sorted_append_cons] at hs ⊢
  refine ⟨hs.1,fun x hx => ?_,fun x hx => ?_⟩
  · exact hc.lt_of_lt_of_le (hs.2.1 x hx) (hc.eq_swap he).le
  · exact hc.lt_of_le_of_lt he.le (hs.2.2 x hx)

theorem Sorted.erase {a : Addr} (hs : Sorted cmp key (xs ++ a :: ys)) : Sorted cmp key (xs ++ ys) := by
  refine List.Pairwise.sublist ?_ hs
  exact (List.Sublist.refl xs).append (List.sublist_cons_self a ys)

end Sorted

theorem Above.slot_val {p : Addr} (ha : Above h root c p) : (h (slot root c).1).p (slot root c).2 = p := by
  cases c with
  | nil => simpa [Above] using ha
  | cons f c =>
    cases f with
    | inL a d r => simpa using ha.2.2.2.1
    | inR l a d => simpa using ha.2.2.2.2.1

/-! ## Descent -/

/-- One turn of the descent from a slot: stop at an empty slot or an equal key. -/
def findBody (cmp : κ → κ → ℤ) (h : Heap δ κ) (key : κ) (s : Addr × Dir) :
    Option (Turn (Addr × Dir) (Addr × Dir)) :=
  let tmp := (h s.1).p s.2
  if tmp = 0 then some (.leave s)
  else
    let dir := cmp key (h tmp).key
    if dir < 0 then some (.again (tmp,.L))
    else if dir > 0 then some (.again (tmp,.R))
    else some (.leave (tmp,.N))

/-- The descent from the sentinel: the parent and slot for a new key, or the node with
an equal key and the mark of an exact hit. -/
def findloc (cmp : κ → κ → ℤ) (h : Heap δ κ) (root : Addr) (key : κ) (fuel : ℕ) : Option (Addr × Dir) :=
  loop (findBody cmp h key) fuel (root,.P)

/-- What a finished descent has found. -/
def Found (cmp : κ → κ → ℤ) (h : Heap δ κ) (root : Addr) (T : LTree δ) (k : κ) (s : Addr × Dir) : Prop :=
  (∃ c, plug c .nil = T ∧ s = slot root c ∧ Below cmp h.keys (lefts c) k ∧ Beyond cmp h.keys (rights c) k) ∨
  ∃ c l a d r, plug c (.node l a d r) = T ∧ s = (a,.N) ∧ cmp k (h a).key = 0

theorem findloc_spec {cmp : κ → κ → ℤ} (hc : IsCmp cmp) {T : LTree δ} (hz : Zip h root [] T)
    (hs : Sorted cmp h.keys T.addrs) (k : κ) {fuel : ℕ} (hf : T.addrs.length < fuel) :
    ∃ s, findloc cmp h root k fuel = some s ∧ Found cmp h root T k s := by
  let I : Spine δ × LTree δ → Prop := fun f => plug f.1 f.2 = T ∧
    Below cmp h.keys (lefts f.1) k ∧ Beyond cmp h.keys (rights f.1) k
  suffices hmain : ∀ n c t, t.addrs.length < n → I (c,t) →
      ∃ s, loop (findBody cmp h k) n (slot root c) = some s ∧ Found cmp h root T k s by
    exact hmain fuel [] T hf ⟨rfl,by simp [Below, lefts],by simp [Beyond, rights]⟩
  intro n c t hn hI
  -- the focus shrinks with every step of the descent
  induction n generalizing c t with
  | zero => omega
  | succ n ih =>
    obtain ⟨hp,hb,hy⟩ := hI
    have hzt : Zip h root c t := zip_top.mpr (by rw [hp]; exact hz)
    have hval := hzt.above.slot_val
    cases t with
    | nil => exact ⟨slot root c,loop_leave (by simp [findBody, hval]),Or.inl ⟨c,hp,rfl,hb,hy⟩⟩
    | node l a d r =>
      have ha : a ≠ 0 := hzt.ne_zero (Zip.focus_mem (by simp))
      rw [LTree.ptr_node] at hval
      simp only [LTree.addrs_node, List.length_append, List.length_cons] at hn
      rw [← hp,addrs_plug,LTree.addrs_node] at hs
      have hsa : lefts c ++ (l.addrs ++ a :: r.addrs) ++ rights c =
          (lefts c ++ l.addrs) ++ a :: (r.addrs ++ rights c) := by simp
      rw [hsa,sorted_append_cons] at hs
      rcases lt_trichotomy (cmp k (h a).key) 0 with hlt | heq | hgt
      · rw [loop_again (t := (a,.L)) (by simp [findBody, hval, ha, hlt])]
        refine ih (.inL a d r :: c) l (by omega) ⟨hp,hb,?_⟩
        intro x hx
        simp only [rights, List.cons_append, List.mem_cons, List.mem_append] at hx
        rcases hx with rfl | hx
        · exact hlt
        · exact hc.lt_trans hlt (hs.2.2 x (by simpa using hx))
      · exact ⟨(a,.N),loop_leave (by simp [findBody, hval, ha, heq]),Or.inr ⟨c,l,a,d,r,hp,rfl,heq⟩⟩
      · rw [loop_again (t := (a,.R)) (by simp [findBody, hval, ha, hgt, not_lt.mpr hgt.le])]
        refine ih (.inR l a d :: c) r (by omega) ⟨hp,?_,hy⟩
        have hak : cmp (h a).key k < 0 := (hc.swap _ _).mpr hgt
        intro x hx
        simp only [lefts, List.mem_append, List.mem_singleton] at hx
        rcases hx with hx | hx | rfl
        · exact hb x hx
        · exact hc.lt_trans (hs.2.1 x (by simp [hx])) hak
        · exact hak

theorem findloc_congr (cmp : κ → κ → ℤ) {T : LTree δ} (hz : Zip h root [] T)
    (hf : ∀ x, x = root ∨ x ∈ T.addrs → h' x = h x) (k : κ) (fuel : ℕ) :
    findloc cmp h' root k fuel = findloc cmp h root k fuel := by
  let I : Addr × Dir → Prop := fun s => ∃ c t, plug c t = T ∧ s = slot root c
  have hread : ∀ s, I s → ∃ t : LTree δ, (h s.1).p s.2 = t.ptr ∧ (∀ x ∈ t.addrs, x ≠ 0 ∧ h' x = h x) ∧
      h' s.1 = h s.1 ∧ (t.ptr ≠ 0 → ∀ d, d = .L ∨ d = .R → I (t.ptr,d)) := by
    rintro s ⟨c,t,hp,rfl⟩
    have hzt : Zip h root c t := zip_top.mpr (by rw [hp]; exact hz)
    refine ⟨t,hzt.above.slot_val,fun x hx => ⟨hzt.ne_zero (Zip.focus_mem hx),hf x (Or.inr ?_)⟩,hf _ ?_,?_⟩
    · rw [← hp,addrs_plug]
      simp [hx]
    · rw [← hp]
      exact List.mem_cons.mp (Zip.slot_mem root c t)
    · intro h0 d hd
      cases t with
      | nil => simp at h0
      | node l a e r =>
        rcases hd with rfl | rfl
        · exact ⟨.inL a e r :: c,l,hp,rfl⟩
        · exact ⟨.inR l a e :: c,r,hp,rfl⟩
  refine loop_congr (I := I) ?_ ?_ ⟨[],T,rfl,rfl⟩
  · intro s hs
    obtain ⟨t,hv,ht,h1,-⟩ := hread s hs
    simp only [findBody, h1, hv]
    split
    · rfl
    · rename_i h0
      rw [(ht _ (LTree.ptr_mem h0)).2]
  · intro s s' hs hb
    obtain ⟨t,hv,-,-,hI⟩ := hread s hs
    simp only [findBody, hv] at hb
    split at hb
    · cases hb
    · rename_i h0
      split at hb
      · cases hb
        exact hI h0 .L (Or.inl rfl)
      · split at hb
        · cases hb
          exact hI h0 .R (Or.inr rfl)
        · cases hb

/-- The slot an insertion uses: the one it was given, or the one the descent finds. -/
def locate (cmp : κ → κ → ℤ) (h : Heap δ κ) (root : Addr) (key : κ) (loc : Addr) (atdir : Dir) (fuel : ℕ) :
    Option (Addr × Dir) :=
  if loc ≠ 0 then
    if atdir = .L ∨ atdir = .R ∨ (atdir = .P ∧ loc = root) then some (loc,atdir) else none
  else findloc cmp h root key fuel

/-- A caller that names a slot took it from a lookup that found no equal key. -/
def LocOk (cmp : κ → κ → ℤ) (h : Heap δ κ) (root : Addr) (key : κ) (loc : Addr) (atdir : Dir) : Prop :=
  loc = 0 ∨ atdir ≠ .N ∧ ∃ fuel, findloc cmp h root key fuel = some (loc,atdir)

theorem findloc_grows (cmp : κ → κ → ℤ) (h : Heap δ κ) (root : Addr) (key : κ) {k m : ℕ} (hkm : k ≤ m) :
    Grows (findloc cmp h root key k) (findloc cmp h root key m) := loop_grows hkm _

theorem locate_grows (cmp : κ → κ → ℤ) (h : Heap δ κ) (root : Addr) (key : κ) (loc : Addr) (dir : Dir) {k m : ℕ}
    (hkm : k ≤ m) : Grows (locate cmp h root key loc dir k) (locate cmp h root key loc dir m) :=
  Grows.ite (.refl _) (findloc_grows cmp h root key hkm)

theorem slot_dir (root : Addr) (c : Spine δ) :
    (slot root c).2 = .L ∨ (slot root c).2 = .R ∨ ((slot root c).2 = .P ∧ (slot root c).1 = root) := by
  cases c with
  | nil => simp
  | cons f c => cases f <;> simp

theorem locate_spec {cmp : κ → κ → ℤ} (hc : IsCmp cmp) {T : LTree δ} (hz : Zip h root [] T)
    (hs : Sorted cmp h.keys T.addrs) {key : κ} {loc : Addr} {dir : Dir} (hl : LocOk cmp h root key loc dir)
    {fuel : ℕ} (hf : T.addrs.length < fuel) :
    ∃ s, locate cmp h root key loc dir fuel = some s ∧ Found cmp h root T key s := by
  obtain ⟨s,hfs,hs⟩ := findloc_spec hc hz hs key hf
  by_cases h0 : loc = 0
  · exact ⟨s,by simpa [locate, h0] using hfs,hs⟩
  · obtain ⟨hN,f,hf'⟩ := hl.resolve_left h0
    obtain rfl := Grows.agree (fun _ _ => findloc_grows cmp h root key) hfs hf'
    refine ⟨_,?_,hs⟩
    rcases hs with ⟨c,-,hs,-⟩ | ⟨c,l,a,d,r,-,hs,-⟩
    · have := slot_dir root c
      rw [← hs] at this
      simp [locate, h0, this]
    · cases hs
      exact absurd rfl hN

theorem Found.dir_eq {cmp : κ → κ → ℤ} {T : LTree δ} {k : κ} {a : Addr} {d : Dir} (hf : Found cmp h root T k (a,d)) :
    (d ≠ .N ∧ ∃ c, plug c .nil = T ∧ (a,d) = slot root c ∧ Below cmp h.keys (lefts c) k ∧
      Beyond cmp h.keys (rights c) k) ∨
    (d = .N ∧ ∃ c l e r, plug c (.node l a e r) = T ∧ cmp k (h a).key = 0) := by
  rcases hf with ⟨c,hT,hs,hb⟩ | ⟨c,l,b,e,r,hT,hs,hk⟩
  · refine Or.inl ⟨?_,c,hT,hs,hb⟩
    have := slot_dir_ne root c
    rwa [← hs] at this
  · cases hs
    exact Or.inr ⟨rfl,c,l,e,r,hT,hk⟩

theorem Found.cases {cmp : κ → κ → ℤ} (hc : IsCmp cmp) {T : LTree δ} {k : κ} {a : Addr} {d : Dir}
    (hf : Found cmp h root T k (a,d)) :
    (d ≠ .N ∧ ∀ x ∈ T.addrs, cmp k (h x).key ≠ 0) ∨ (d = .N ∧ a ∈ T.addrs ∧ cmp k (h a).key = 0) := by
  rcases hf.dir_eq with ⟨hd,c,rfl,-,hb,hy⟩ | ⟨rfl,c,l,e,r,rfl,hk⟩
  · refine Or.inl ⟨hd,fun x hx he => ?_⟩
    simp only [addrs_plug, LTree.addrs_nil, List.append_nil, List.mem_append] at hx
    have he' := hc.eq_swap he
    rcases hx with hx | hx
    · exact absurd he' (hb x hx).ne
    · exact absurd he (hy x hx).ne
  · exact Or.inr ⟨rfl,by simp [addrs_plug],hk⟩

/-! ## The rightmost node -/

/-- Walk right while there is a right child. -/
def rightmost (h : Heap δ κ) (a : Addr) (fuel : ℕ) : Option Addr :=
  loop (fun a => if (h a).pR = 0 then some (.leave a) else some (.again (h a).pR)) fuel a

theorem rightmost_spec {l r : LTree δ} {a : Addr} {d : δ} (hz : Zip h root c (.node l a d r)) {fuel : ℕ}
    (hf : r.addrs.length < fuel) : ∃ c' l' m d', plug c' (.node l' m d' .nil) = .node l a d r ∧
      rights c' = [] ∧ rightmost h a fuel = some m := by
  induction r generalizing c l a d fuel with
  | nil =>
    obtain ⟨fuel,rfl⟩ : ∃ n, fuel = n + 1 := ⟨fuel - 1,by omega⟩
    have hr : (h a).pR = 0 := hz.sub.2.2.2.2.1
    exact ⟨[],l,a,d,rfl,rfl,loop_leave (by simp [hr])⟩
  | node rl b e rr _ ihr =>
    obtain ⟨fuel,rfl⟩ : ∃ n, fuel = n + 1 := ⟨fuel - 1,by omega⟩
    have hr : (h a).pR = b := hz.sub.2.2.2.2.1
    have hb : b ≠ 0 := hz.ne_zero (Zip.focus_mem (by simp))
    simp only [LTree.addrs_node, List.length_append, List.length_cons] at hf
    obtain ⟨c',l',m,d',hp,hrt,hm⟩ := ihr (zip_inR.mpr hz) (show rr.addrs.length < fuel by omega)
    refine ⟨c' ++ [.inR l a d],l',m,d',?_,?_,?_⟩
    · have : ∀ (c' : Spine δ) (t : LTree δ), plug (c' ++ [.inR l a d]) t = .node l a d (plug c' t) := by
        intro c' t
        induction c' generalizing t with
        | nil => rfl
        | cons f c' ih => exact ih (f.fill t)
      rw [this,hp]
    · clear hm hp ihr
      induction c' with
      | nil => rfl
      | cons f c' ih =>
        cases f with
        | inL a d r => simp [rights] at hrt
        | inR l a d => exact ih hrt
    · rw [rightmost,loop_again (t := b) (by simp [hr, hb])]
      exact hm

theorem rightmost_of_ne_nil (hz : Zip h root c t) (ht : t ≠ .nil) {fuel : ℕ} (hf : t.addrs.length < fuel) :
    ∃ c' l' m d', plug c' (.node l' m d' .nil) = t ∧ rights c' = [] ∧ rightmost h t.ptr fuel = some m := by
  cases t with
  | nil => exact absurd rfl ht
  | node l a d r =>
    simp only [LTree.addrs_node, List.length_append, List.length_cons] at hf
    exact rightmost_spec hz (show r.addrs.length < fuel by omega)

theorem rightmost_leaf {l : LTree δ} {x : Addr} {e : δ} {fuel : ℕ} (hz : Zip h root c (.node l x e .nil))
    (hf : 0 < fuel) : rightmost h x fuel = some x := by
  obtain ⟨fuel,rfl⟩ : ∃ n, fuel = n + 1 := ⟨fuel - 1,by omega⟩
  have hr : (h x).pR = 0 := hz.sub.2.2.2.2.1
  exact loop_leave (by simp [hr])

/-- The node that replaces `node` when it is removed: the largest of its left subtree, or
its right child when there is no left one. -/
def findrep (h : Heap δ κ) (node : Addr) (fuel : ℕ) : Option Addr :=
  let tmp := (h node).pL
  if tmp = 0 then some (h node).pR else rightmost h tmp fuel

theorem findrep_grows (h : Heap δ κ) (a : Addr) {k m : ℕ} (hkm : k ≤ m) : Grows (findrep h a k) (findrep h a m) :=
  Grows.ite (.refl _) (loop_grows hkm _)

end Catlib.Linked
