import Catlib.Process.Pspawn
import Mathlib.Data.List.Range

/-! # The steps of set_up_fds

Whatever the files are, the entries that are still to come keep hold of every descriptor that the
bit set names and that no target has taken; so the search for the entry in the way finds it.
-/
namespace Catlib.Pspawn

variable {φ : Type*} {spec es : List FdEntry} {e : FdEntry} {n i j m : ℕ} {ts : List ℤ} {t d r : ℤ} {c c' cf : Child φ}
  {done : List (ℤ × ℕ)} {f : φ}

/-! ## Specifications -/

/-- The targets with the index of their entry. -/
def pairsFrom : List FdEntry → ℕ → List (ℤ × ℕ)
  | [], _ => []
  | e :: es, i => e.remfds.map (·,i) ++ pairsFrom es (i + 1)

abbrev pairs (spec : List FdEntry) : List (ℤ × ℕ) := pairsFrom spec 0

/-- The source of an entry at the call. -/
def orig (spec : List FdEntry) (i : ℕ) : ℤ := (spec.map FdEntry.pipefd).getD i (-1)

theorem mem_pairsFrom {x : ℤ × ℕ} : x ∈ pairsFrom es i ↔ ∃ k, ∃ e, es[k]? = some e ∧ x.2 = i + k ∧ x.1 ∈ e.remfds := by
  induction es generalizing i with
  | nil =>
    constructor
    · exact nofun
    · rintro ⟨k,e,h,-⟩
      cases h
  | cons e es ih =>
    rw [pairsFrom,List.mem_append,List.mem_map,ih]
    constructor
    · rintro (⟨t,ht,rfl⟩ | ⟨k,e',h1,h2,h3⟩)
      · exact ⟨0,e,rfl,rfl,ht⟩
      · exact ⟨k + 1,e',h1,by omega,h3⟩
    · rintro ⟨k,e',h1,h2,h3⟩
      cases k with
      | zero =>
        cases h1
        obtain ⟨t,k⟩ := x
        obtain rfl : k = i := h2
        exact Or.inl ⟨t,h3,rfl⟩
      | succ k => exact Or.inr ⟨k,e',h1,by omega,h3⟩

theorem mapFds_spec {fds mapped mapped' : List ℤ} (h : mapFds fds mapped = some mapped') :
    (∀ fd ∈ fds, 0 ≤ fd ∧ fd < maxFds) ∧ (mapped.Nodup → mapped'.Nodup) ∧ mapped' = fds.reverse ++ mapped := by
  induction fds generalizing mapped with
  | nil =>
    cases h
    exact ⟨nofun,id,rfl⟩
  | cons fd fds ih =>
    rw [mapFds] at h
    split at h
    · cases h
    · rename_i hno
      rw [not_or,not_or,Int.not_lt,Int.not_le] at hno
      obtain ⟨h1,h2,h3⟩ := ih h
      refine ⟨?_,fun hm => h2 (List.nodup_cons.2 ⟨hno.2.2,hm⟩),?_⟩
      · rintro a ha
        rcases List.mem_cons.1 ha with rfl | ha
        · exact ⟨hno.1,hno.2.1⟩
        · exact h1 a ha
      · rw [h3,List.reverse_cons,List.append_assoc]
        rfl

theorem specLoop_spec {mapped : List ℤ} (h : specLoop es mapped = true) (hm : mapped.Nodup) (i : ℕ) :
    (∀ e ∈ es, e.remfds ≠ []) ∧ (∀ x ∈ pairsFrom es i, 0 ≤ x.1 ∧ x.1 < maxFds) ∧
      (mapped ++ (pairsFrom es i).map Prod.fst).Nodup := by
  induction es generalizing mapped i with
  | nil => exact ⟨nofun,nofun,by rw [pairsFrom,List.map_nil,List.append_nil]; exact hm⟩
  | cons e es ih =>
    rw [specLoop] at h
    split at h
    · cases h
    rename_i hno
    cases hmap : mapFds e.remfds mapped with
    | none =>
      rw [hmap] at h
      cases h
    | some mapped' =>
      rw [hmap] at h
      obtain ⟨h1,h2,h3⟩ := mapFds_spec hmap
      obtain ⟨g1,g2,g3⟩ := ih h (h2 hm) (i + 1)
      refine ⟨?_,?_,?_⟩
      · rintro a ha
        rcases List.mem_cons.1 ha with rfl | ha
        · exact fun he => hno (Or.inr he)
        · exact g1 a ha
      · intro x hx
        rw [pairsFrom,List.mem_append,List.mem_map] at hx
        rcases hx with ⟨t,ht,rfl⟩ | hx
        · exact h1 t ht
        · exact g2 x hx
      · rw [h3,List.append_assoc] at g3
        rw [pairsFrom,List.map_append,List.map_map]
        have hid : e.remfds.map (Prod.fst ∘ fun t => (t,i)) = e.remfds := List.map_id _
        rw [hid]
        refine (List.Perm.nodup_iff ?_).1 g3
        exact ((List.reverse_perm _).append_right _).trans (List.perm_append_comm_assoc _ _ _)

/-- What `spec_ok` has seen to. -/
structure Accepted (spec : List FdEntry) : Prop where
  some : ∀ e ∈ spec, e.remfds ≠ []
  nonneg : ∀ x ∈ pairs spec, 0 ≤ x.1
  nodup : ((pairs spec).map Prod.fst).Nodup

theorem specOk_accepted (h : specOk spec = true) : Accepted spec := by
  obtain ⟨h1,h2,h3⟩ := specLoop_spec h List.nodup_nil 0
  exact ⟨h1,fun x hx => (h2 x hx).1,h3⟩

/-! ## Where the loops are -/

/-- Behind the targets done there are those of entry `i` and of the entries after it. -/
structure At (spec : List FdEntry) (i : ℕ) (ts : List ℤ) (es : List FdEntry) (done : List (ℤ × ℕ)) : Prop where
  split : done ++ (ts.map (·,i) ++ pairsFrom es (i + 1)) = pairs spec
  len : i + 1 + es.length = spec.length
  le : ∀ x ∈ done, x.2 ≤ i
  later : ∀ k, spec[i + 1 + k]? = es[k]?

/-- The targets still to come. -/
def rem (ts : List ℤ) (es : List FdEntry) : List ℤ := ts ++ es.flatMap FdEntry.remfds

theorem pairsFrom_fst (es : List FdEntry) (i : ℕ) : (pairsFrom es i).map Prod.fst = es.flatMap FdEntry.remfds := by
  induction es generalizing i with
  | nil => rfl
  | cons e es ih =>
    have hid : e.remfds.map (Prod.fst ∘ fun t => (t,i)) = e.remfds := List.map_id _
    rw [pairsFrom,List.map_append,List.map_map,hid,ih]
    rfl

theorem At.fst (h : At spec i ts es done) : done.map Prod.fst ++ rem ts es = (pairs spec).map Prod.fst := by
  have hid : ts.map (Prod.fst ∘ fun t => (t,i)) = ts := List.map_id _
  rw [← h.split,List.map_append,List.map_append,List.map_map,hid,pairsFrom_fst]
  rfl

theorem At.fresh (h : At spec i ts es done) (ha : Accepted spec) (hd : d ∈ rem ts es) : d ∉ done.map Prod.fst := by
  have hn := ha.nodup
  rw [← h.fst,List.nodup_append] at hn
  exact fun hdone => hn.2.2 d hdone d hd rfl

theorem At.once (h : At spec i (t :: ts) es done) (ha : Accepted spec) : t ∉ rem ts es := by
  have hn := ha.nodup
  rw [← h.fst,List.nodup_append] at hn
  exact (List.nodup_cons.1 hn.2.1).1

theorem At.mem (h : At spec i (t :: ts) es done) : (t,i) ∈ pairs spec := by
  rw [← h.split]
  exact List.mem_append_right _ (List.mem_append_left _ List.mem_cons_self)

theorem At.lt (h : At spec i ts es done) : i < spec.length := by
  have := h.len
  omega

theorem At.step (h : At spec i (t :: ts) es done) : At spec i ts es (done ++ [(t,i)]) := by
  refine ⟨?_,h.len,?_,h.later⟩
  · rw [List.append_assoc]
    exact h.split
  · intro x hx
    rcases List.mem_append.1 hx with hx | hx
    · exact h.le x hx
    · rw [List.mem_singleton.1 hx]

theorem At.next (h : At spec i [] (e :: es) done) : At spec (i + 1) e.remfds es done := by
  refine ⟨h.split,?_,fun x hx => Nat.le_succ_of_le (h.le x hx),fun k => ?_⟩
  · have := h.len
    rw [List.length_cons] at this
    omega
  · have hk := h.later (k + 1)
    rw [List.getElem?_cons_succ] at hk
    rw [← hk]
    congr 1
    omega

theorem At.mem_rem (h : At spec i ts es done) (hj : i < j) {x : ℤ} (hx : (x,j) ∈ pairs spec) : x ∈ rem ts es := by
  obtain ⟨k,e,he,hk,hxe⟩ := mem_pairsFrom.1 hx
  obtain rfl : j = k := hk.trans (Nat.zero_add k)
  have hlater := h.later (j - (i + 1))
  rw [show i + 1 + (j - (i + 1)) = j by omega,he] at hlater
  refine List.mem_append_right _ (List.mem_flatMap.2 ⟨e,?_,hxe⟩)
  exact List.mem_of_getElem? hlater.symm

theorem At.has (h : At spec i [] es done) (hle : j ≤ i) {x : ℤ} (hx : (x,j) ∈ pairs spec) : (x,j) ∈ done := by
  rw [← h.split] at hx
  rcases List.mem_append.1 hx with hx | hx
  · exact hx
  · obtain ⟨k,e,-,hk,-⟩ := mem_pairsFrom.1 hx
    have : j = i + 1 + k := hk
    omega

theorem Accepted.target (ha : Accepted spec) (hj : j < spec.length) : ∃ x, (x,j) ∈ pairs spec := by
  have he := List.getElem?_eq_getElem hj
  obtain ⟨x,hx⟩ := List.exists_mem_of_ne_nil _ (ha.some _ (List.getElem_mem hj))
  exact ⟨x,mem_pairsFrom.2 ⟨j,_,he,(Nat.zero_add j).symm,hx⟩⟩

/-! ## What a step keeps whatever the files are -/

/-- The return pipe stays where it is; entries that are through have a target for a source, or none;
a descriptor in the bit set that no target has taken is the return pipe or a source to come. -/
structure Tidy (spec : List FdEntry) (r : ℤ) (i : ℕ) (done : List (ℤ × ℕ)) (c : Child φ) : Prop where
  ret : c.retfd = r
  past : ∀ m, m < i → c.src m = -1 ∨ c.src m ∈ done.map Prod.fst
  owner : ∀ d, c.pipefds d = true → d ∉ done.map Prod.fst → d = r ∨ ∃ j, i ≤ j ∧ j < spec.length ∧ c.src j = d
  moved : ∀ j, i ≤ j → j < spec.length → c.src j = orig spec j ∨ orig spec j ∈ done.map Prod.fst
  flag : c.nomap = true ↔ (c.src i,i) ∈ done
  clear : c.nomap = false → (∃ t, (t,i) ∈ done) → c.pipefds (c.src i) = false

/-- The bit set without a source. -/
def clearBit (b : ℤ → Bool) (s : ℤ) : ℤ → Bool := fun d => if d = s then false else b d

/-- What `set_up_fd` does: nothing, or the source is copied onto the target, from which an open file
of a later entry has been moved to a free descriptor. -/
inductive Took (n i : ℕ) (c : Child φ) (t : ℤ) : Child φ → Prop
  | same (h : t = c.src i) : Took n i c t { c with nomap := true }
  | plain (h : t ≠ c.src i) (hb : c.pipefds t = false) (f : φ) (hf : c.fds (c.src i) = some f) :
      Took n i c t { c with fds := c.fds.set t (some f), pipefds := clearBit c.pipefds (c.src i) }
  | moved (h : t ≠ c.src i) (hb : c.pipefds t = true) (d : ℤ) (j : ℕ) (f : φ) (hd : c.fds d = none) (h0 : 0 ≤ d)
      (ht : c.fds t ≠ none) (hij : i < j) (hj : j < n) (hs : c.src j = t)
      (hf : (c.fds.set d (c.fds t)) (c.src i) = some f) :
      Took n i c t { c with
        fds := (c.fds.set d (c.fds t)).set t (some f)
        pipefds := clearBit c.pipefds (c.src i)
        src := fun k => if k = j then d else c.src k }

theorem lowestFree_spec {tab : FdTable φ} (h : lowestFree tab = some d) : tab d = none ∧ 0 ≤ d := by
  rw [lowestFree] at h
  generalize List.range maxFds = l at h
  obtain ⟨k,hk,rfl⟩ := Option.map_eq_some_iff.1 h
  have hnone := List.find?_some hk
  exact ⟨Option.isNone_iff_eq_none.1 hnone,Int.natCast_nonneg k⟩

theorem dup2Fd_spec {tab tab' : FdTable φ} {old new : ℤ} (h : dup2Fd tab old new = some tab') :
    ∃ f, tab old = some f ∧ tab' = tab.set new (some f) := by
  rw [dup2Fd] at h
  split at h
  · cases h
  · rename_i hno
    rw [Option.isNone_iff_eq_none] at hno
    obtain ⟨f,hf⟩ := Option.ne_none_iff_exists'.1 hno
    cases h
    exact ⟨f,hf,by rw [hf]⟩

theorem Tidy.blocking (h : Tidy spec r i done c) (hi : i < spec.length) (ht : t ∉ done.map Prod.fst) (h0 : 0 ≤ t)
    (hne : t ≠ c.src i) (hr : t ≠ r) (hb : c.pipefds t = true) :
    ∃ j, blocking spec.length c.src t = some j ∧ i < j ∧ j < spec.length ∧ c.src j = t := by
  obtain hret | ⟨k,hik,hk,hs⟩ := h.owner t hb ht
  · exact (hr hret).elim
  rw [Pspawn.blocking]
  cases hfind : (List.range spec.length).find? fun j => c.src j = t with
  | none =>
    rw [List.find?_eq_none] at hfind
    exact (hfind k (List.mem_range.2 hk) (decide_eq_true hs)).elim
  | some j =>
    have hj := List.mem_range.1 (List.mem_of_find?_eq_some hfind)
    have hsj := List.find?_some hfind
    rw [decide_eq_true_eq] at hsj
    refine ⟨j,rfl,?_,hj,hsj⟩
    by_contra hle
    rcases Nat.lt_or_eq_of_le (Nat.not_lt.1 hle) with hlt | rfl
    · rcases h.past j hlt with hp | hp
      · omega
      · exact ht (hsj ▸ hp)
    · exact hne hsj.symm

theorem Tidy.took (h : Tidy spec r i done c) (hi : i < spec.length) (ht : t ∉ done.map Prod.fst) (h0 : 0 ≤ t)
    (hr : t ≠ c.src i → t ≠ r) (hc : setUpFd spec.length c t (c.src i) = some c') : Took spec.length i c t c' := by
  rw [setUpFd] at hc
  by_cases hne : t = c.src i
  · rw [if_pos hne] at hc
    cases hc
    exact .same hne
  rw [if_neg hne] at hc
  by_cases hb : c.pipefds t = true
  · rw [if_pos hb] at hc
    obtain ⟨⟨d,tab⟩,hdup,hc⟩ := Option.bind_eq_some_iff.1 hc
    obtain ⟨tab',hdup2,hc⟩ := Option.bind_eq_some_iff.1 hc
    obtain ⟨j,hblock,hij,hj,hs⟩ := h.blocking hi ht h0 hne (hr hne) hb
    rw [dupFd] at hdup
    split at hdup
    · cases hdup
    rename_i hopen
    rw [Option.isNone_iff_eq_none] at hopen
    obtain ⟨d',hfree,hd⟩ := Option.map_eq_some_iff.1 hdup
    cases hd
    obtain ⟨hnone,hd0⟩ := lowestFree_spec hfree
    obtain ⟨f,hf,rfl⟩ := dup2Fd_spec hdup2
    rw [unblock,hblock] at hc
    cases hc
    exact .moved hne hb d j f hnone hd0 hopen hij hj hs hf
  · rw [if_neg hb] at hc
    obtain ⟨tab',hdup2,hc⟩ := Option.map_eq_some_iff.1 hc
    obtain ⟨f,hf,rfl⟩ := dup2Fd_spec hdup2
    cases hc
    exact .plain hne (Bool.eq_false_iff.2 hb) f hf

theorem fst_append_single (done : List (ℤ × ℕ)) (x : ℤ × ℕ) (d : ℤ) :
    d ∈ (done ++ [x]).map Prod.fst ↔ d ∈ done.map Prod.fst ∨ d = x.1 := by
  rw [List.map_append,List.mem_append]
  exact or_congr_right List.mem_singleton

theorem clearBit_true {b : ℤ → Bool} {s : ℤ} (h : clearBit b s d = true) : d ≠ s ∧ b d = true := by
  rw [clearBit] at h
  split at h
  · cases h
  · rename_i hne
    exact ⟨hne,h⟩

theorem Tidy.step (h : Tidy spec r i done c) (hc : Took spec.length i c t c') : Tidy spec r i (done ++ [(t,i)]) c' := by
  have hmono : ∀ d, d ∈ done.map Prod.fst → d ∈ (done ++ [(t,i)]).map Prod.fst :=
    fun d hd => (fst_append_single done (t,i) d).2 (Or.inl hd)
  have htake : t ∈ (done ++ [(t,i)]).map Prod.fst := (fst_append_single done (t,i) t).2 (Or.inr rfl)
  have hfree : ∀ d, d ∉ (done ++ [(t,i)]).map Prod.fst → d ∉ done.map Prod.fst := fun d hd hdone => hd (hmono d hdone)
  have hflag : t ≠ c.src i → (c.nomap = true ↔ (c.src i,i) ∈ done ++ [(t,i)]) := by
    intro hne
    rw [h.flag,List.mem_append,List.mem_singleton]
    exact ⟨Or.inl,fun hm => hm.elim id fun he => (hne (congrArg Prod.fst he).symm).elim⟩
  cases hc with
  | same hs =>
    refine ⟨h.ret,fun m hm => (h.past m hm).imp id (hmono _),fun d hb hd => h.owner d hb (hfree d hd),
      fun j hij hj => (h.moved j hij hj).imp id (hmono _),iff_of_true rfl ?_,fun hn => nomatch hn⟩
    rw [hs]
    exact List.mem_append_right _ List.mem_cons_self
  | plain hne hb f hf =>
    refine ⟨h.ret,fun m hm => (h.past m hm).imp id (hmono _),fun d hd hdone => h.owner d (clearBit_true hd).2 (hfree d hdone),
      fun j hij hj => (h.moved j hij hj).imp id (hmono _),hflag hne,fun _ _ => if_pos rfl⟩
  | moved hne hb d j f hd h0 ht hij hj hs hf =>
    have hsrc : ∀ k, k ≠ j → (if k = j then d else c.src k) = c.src k := fun k hk => if_neg hk
    refine ⟨h.ret,fun m hm => ?_,fun x hx hdone => ?_,fun k hik hk => ?_,?_,fun _ _ => ?_⟩
    · show (if m = j then d else c.src m) = -1 ∨ (if m = j then d else c.src m) ∈ _
      rw [hsrc m (by omega)]
      exact (h.past m hm).imp id (hmono _)
    · obtain hr | ⟨k,hik,hk,hsk⟩ := h.owner x (clearBit_true hx).2 (hfree x hdone)
      · exact Or.inl hr
      · refine Or.inr ⟨k,hik,hk,?_⟩
        show (if k = j then d else c.src k) = x
        rw [hsrc k ?_,hsk]
        rintro rfl
        exact hdone (hsk ▸ hs ▸ htake)
    · show (if k = j then d else c.src k) = _ ∨ _
      by_cases hkj : k = j
      · subst hkj
        refine Or.inr ?_
        rcases h.moved k hik hk with ho | ho
        · rw [← ho,hs]
          exact htake
        · exact hmono _ ho
      · rw [hsrc k hkj]
        exact (h.moved k hik hk).imp id (hmono _)
    · show c.nomap = true ↔ ((if i = j then d else c.src i),i) ∈ _
      rw [hsrc i (by omega)]
      exact hflag hne
    · show clearBit c.pipefds (c.src i) (if i = j then d else c.src i) = false
      rw [hsrc i (by omega)]
      exact if_pos rfl

theorem finish_src (i : ℕ) (c : Child φ) (hj : j ≠ i) : (finishEntry i c).src j = c.src j := by
  rw [finishEntry]
  split
  · rfl
  · exact if_neg hj

theorem finish_bits (i : ℕ) (c : Child φ) : (finishEntry i c).pipefds = c.pipefds ∧ (finishEntry i c).retfd = c.retfd := by
  rw [finishEntry]
  split <;> exact ⟨rfl,rfl⟩

theorem finish_fds (i : ℕ) (c : Child φ) (d : ℤ) : (finishEntry i c).fds d = c.fds d ∨ (finishEntry i c).fds d = none := by
  rw [finishEntry]
  split
  · exact Or.inl rfl
  · show (if d = c.src i then none else c.fds d) = _ ∨ (if d = c.src i then none else c.fds d) = _
    split
    · exact Or.inr rfl
    · exact Or.inl rfl

theorem Tidy.finish (h : Tidy spec r i done c) (hle : ∀ x ∈ done, x.2 ≤ i) (hsome : ∃ t, (t,i) ∈ done) :
    Tidy spec r (i + 1) done { finishEntry i c with nomap := false } := by
  have hnone : ∀ t, (t,i + 1) ∉ done := fun t ht => by
    have : i + 1 ≤ i := hle _ ht
    omega
  obtain ⟨hbits,hret⟩ := finish_bits i c
  refine ⟨hret.trans h.ret,fun m hm => ?_,fun d hb hd => ?_,fun j hij hj => ?_,iff_of_false (nomatch ·) (hnone _),
    fun _ ⟨t,ht⟩ => (hnone t ht).elim⟩
  · show (finishEntry i c).src m = -1 ∨ (finishEntry i c).src m ∈ _
    rcases Nat.lt_succ_iff_lt_or_eq.1 hm with hm | rfl
    · rw [finish_src i c (by omega)]
      exact h.past m hm
    · rw [finishEntry]
      split
      · rename_i hn
        exact Or.inr (List.mem_map.2 ⟨_,h.flag.1 hn,rfl⟩)
      · exact Or.inl (if_pos rfl)
  · change (finishEntry i c).pipefds d = true at hb
    rw [hbits] at hb
    obtain hr | ⟨j,hij,hj,hs⟩ := h.owner d hb hd
    · exact Or.inl hr
    · have hne : j ≠ i := by
        rintro rfl
        cases hn : c.nomap with
        | true => exact hd (List.mem_map.2 ⟨_,h.flag.1 hn,hs⟩)
        | false =>
          rw [← hs,h.clear hn hsome] at hb
          cases hb
      exact Or.inr ⟨j,by omega,hj,(finish_src i c hne).trans hs⟩
  · show (finishEntry i c).src j = _ ∨ _
    rw [finish_src i c (by omega)]
    exact h.moved j (by omega) hj

/-! ## Runs -/

/-- The rest of the loops, from the targets `ts` of entry `i` on. -/
inductive Runs (n : ℕ) (cf : Child φ) : ℕ → List ℤ → List FdEntry → Child φ → Prop
  | last {i : ℕ} {c : Child φ} (h : finishEntry i c = cf) : Runs n cf i [] [] c
  | next {i : ℕ} {e : FdEntry} {es : List FdEntry} {c : Child φ}
      (h : Runs n cf (i + 1) e.remfds es { finishEntry i c with nomap := false }) : Runs n cf i [] (e :: es) c
  | target {i : ℕ} {t : ℤ} {ts : List ℤ} {es : List FdEntry} {c c' : Child φ} (hc : setUpFd n c t (c.src i) = some c')
      (h : Runs n cf i ts es c') : Runs n cf i (t :: ts) es c

theorem runs_remfds {cm : Child φ} (h : setUpRemfds n i ts c = some cm) (hr : Runs n cf i [] es cm) : Runs n cf i ts es c := by
  induction ts generalizing c with
  | nil =>
    cases h
    exact hr
  | cons t ts ih =>
    obtain ⟨c',hc,h⟩ := Option.bind_eq_some_iff.1 h
    exact .target hc (ih h)

theorem runs_entries {cm : Child φ} (h : setUpEntries n es (i + 1) (finishEntry i cm) = some cf) : Runs n cf i [] es cm := by
  induction es generalizing i cm with
  | nil =>
    cases h
    exact .last rfl
  | cons e es ih =>
    obtain ⟨cm',hm,h⟩ := Option.bind_eq_some_iff.1 h
    exact .next (runs_remfds hm (ih h))

/-- The targets of an entry still to come all are targets of the specification but of no entry that
is the return pipe. -/
def Spared (spec : List FdEntry) (r : ℤ) : Prop := ∀ x ∈ pairs spec, x.1 = r → orig spec x.2 = r

theorem Tidy.spared (h : Tidy spec r i done c) (ha : Accepted spec) (hat : At spec i (t :: ts) es done) (hp : Spared spec r)
    (hne : t ≠ c.src i) : t ≠ r := by
  rintro rfl
  have horig := hp _ hat.mem rfl
  have hfresh := hat.fresh ha (List.mem_cons_self : t ∈ t :: (ts ++ es.flatMap FdEntry.remfds))
  rcases h.moved i (Nat.le_refl i) hat.lt with hm | hm
  · exact hne (hm.trans horig).symm
  · exact hfresh (horig ▸ hm)

theorem Tidy.tookOf (h : Tidy spec r i done c) (ha : Accepted spec) (hat : At spec i (t :: ts) es done) (hp : Spared spec r)
    (hc : setUpFd spec.length c t (c.src i) = some c') : Took spec.length i c t c' :=
  h.took hat.lt (hat.fresh ha List.mem_cons_self) (ha.nonneg _ hat.mem) (h.spared ha hat hp) hc

theorem At.target (h : At spec i [] es done) (ha : Accepted spec) : ∃ t, (t,i) ∈ done := by
  obtain ⟨t,ht⟩ := ha.target h.lt
  exact ⟨t,h.has (Nat.le_refl i) ht⟩

/-! ## A file that is lost -/

/-- No target still to come that the bit set names has the file. -/
def Quiet (f : φ) (R : List ℤ) (c : Child φ) : Prop := ∀ d ∈ R, c.pipefds d = true → c.fds d ≠ some f

theorem Took.quiet {R : List ℤ} (hc : Took n i c t c') (hq : Quiet f (t :: R) c) (ht : t ∉ R) :
    Quiet f R c' ∧ ∀ d, d ≠ t → c.fds d ≠ some f → c'.fds d ≠ some f := by
  have hrest : Quiet f R c := fun d hd => hq d (List.mem_cons_of_mem _ hd)
  cases hc with
  | same hs => exact ⟨hrest,fun d _ hd => hd⟩
  | plain hne hb g hg =>
    have hset : ∀ d, d ≠ t → c.fds.set t (some g) d = c.fds d := fun d hd => if_neg hd
    refine ⟨fun d hd hbit => ?_,fun d hdt hd => ?_⟩
    · show c.fds.set t (some g) d ≠ _
      rw [hset d (fun he => ht (he ▸ hd))]
      exact hrest d hd (clearBit_true hbit).2
    · show c.fds.set t (some g) d ≠ _
      rw [hset d hdt]
      exact hd
  | moved hne hb d j g hd h0 hopen hij hj hs hg =>
    have hft := hq t List.mem_cons_self hb
    have hset : ∀ x, x ≠ t → c.fds x ≠ some f → ((c.fds.set d (c.fds t)).set t (some g)) x ≠ some f := by
      intro x hx hfx
      show (if x = t then some g else if x = d then c.fds t else c.fds x) ≠ some f
      rw [if_neg hx]
      split
      · exact hft
      · exact hfx
    exact ⟨fun x hx hbit => hset x (fun he => ht (he ▸ hx)) (hrest x hx (clearBit_true hbit).2),fun x hx hfx => hset x hx hfx⟩

theorem finish_quiet {R : List ℤ} (hq : Quiet f R c) : Quiet f R { finishEntry i c with nomap := false } := by
  intro d hd hbit
  change (finishEntry i c).pipefds d = true at hbit
  rw [(finish_bits i c).1] at hbit
  show (finishEntry i c).fds d ≠ _
  rcases finish_fds i c d with h | h
  · rw [h]
    exact hq d hd hbit
  · rw [h]
    exact nofun

theorem finish_ne (h : c.fds d ≠ some f) : (finishEntry i c).fds d ≠ some f := by
  rcases finish_fds i c d with hf | hf
  · rw [hf]
    exact h
  · rw [hf]
    exact nofun

theorem Runs.never (hrun : Runs spec.length cf i ts es c) (ht : Tidy spec r i done c) (ha : Accepted spec)
    (hat : At spec i ts es done) (hp : Spared spec r) (hq : Quiet f (rem ts es) c) (hd : d ∉ rem ts es)
    (hf : c.fds d ≠ some f) : cf.fds d ≠ some f := by
  induction hrun generalizing done with
  | last h =>
    rw [← h]
    exact finish_ne hf
  | @next i e es c h ih =>
    exact ih (ht.finish hat.le (hat.target ha)) hat.next (finish_quiet hq) hd (finish_ne hf)
  | @target i t ts es c c' hc h ih =>
    have htook := ht.tookOf ha hat hp hc
    obtain ⟨hq',hne⟩ := htook.quiet hq (hat.once ha)
    exact ih (ht.step htook) hat.step hq' (fun hm => hd (List.mem_cons_of_mem _ hm))
      (hne d (fun he => hd (he ▸ List.mem_cons_self)) hf)

theorem Runs.cold (hrun : Runs spec.length cf i ts es c) (ht : Tidy spec r i done c) (ha : Accepted spec)
    (hat : At spec i ts es done) (hp : Spared spec r) (hq : Quiet f (rem ts es) c)
    (hcold : ∀ j, i ≤ j → j < spec.length → c.fds (c.src j) ≠ some f) (hf : c.fds d ≠ some f) : cf.fds d ≠ some f := by
  induction hrun generalizing done with
  | last h =>
    rw [← h]
    exact finish_ne hf
  | @next i e es c h ih =>
    refine ih (ht.finish hat.le (hat.target ha)) hat.next (finish_quiet hq) (fun j hij hj => ?_) (finish_ne hf)
    show (finishEntry i c).fds ((finishEntry i c).src j) ≠ _
    rw [finish_src i c (by omega)]
    exact finish_ne (hcold j (by omega) hj)
  | @target i t ts es c c' hc h ih =>
    have htook := ht.tookOf ha hat hp hc
    obtain ⟨hq',hne⟩ := htook.quiet hq (hat.once ha)
    have hself := hcold i (Nat.le_refl i) hat.lt
    -- what the target gets is not the file either
    have hall : ∀ x, c.fds x ≠ some f → c'.fds x ≠ some f := by
      intro x hx
      by_cases hxt : x = t
      · subst hxt
        cases htook with
        | same hs => exact hx
        | plain hne hb g hg =>
          show (if x = x then some g else c.fds x) ≠ some f
          rw [if_pos rfl,← hg]
          exact hself
        | moved hne hb d' j g hd' h0 hopen hij hj hs hg =>
          show (if x = x then some g else _) ≠ some f
          rw [if_pos rfl,← hg]
          show (if c.src i = d' then c.fds x else c.fds (c.src i)) ≠ some f
          split
          · exact hx
          · exact hself
      · exact hne x hxt hx
    refine ih (ht.step htook) hat.step hq' (fun j hij hj => ?_) (hall d hf)
    cases htook with
    | same hs => exact hcold j hij hj
    | plain hne hb g hg => exact hall _ (hcold j hij hj)
    | moved hne hb d' k g hd' h0 hopen hik hk hs hg =>
      show ((c.fds.set d' (c.fds t)).set t (some g)) (if j = k then d' else c.src j) ≠ some f
      by_cases hjk : j = k
      · rw [if_pos hjk]
        exact hall d' (by rw [hd']; exact nofun)
      · rw [if_neg hjk]
        exact hall _ (hcold j hij hj)

theorem Runs.starved (hrun : Runs spec.length cf i ts es c) (ht : Tidy spec r i done c) (ha : Accepted spec)
    (hat : At spec i ts es done) (hp : Spared spec r) (hq : Quiet f (rem ts es) c) (him : i < m) (hm : m < spec.length)
    (hs : c.src m = d) (hd : d ∉ rem ts es) (hf : c.fds d ≠ some f) : ∃ x, (x,m) ∈ pairs spec ∧ cf.fds x ≠ some f := by
  induction hrun generalizing done with
  | last h =>
    have hlen := hat.len
    rw [List.length_nil] at hlen
    omega
  | @next i e es c h ih =>
    have ht' := ht.finish hat.le (hat.target ha)
    have hq' : Quiet f (rem e.remfds es) { finishEntry i c with nomap := false } := finish_quiet hq
    have hs' : (finishEntry i c).src m = d := (finish_src i c (by omega)).trans hs
    have hf' : (finishEntry i c).fds d ≠ some f := finish_ne hf
    rcases Nat.lt_or_eq_of_le (Nat.succ_le_of_lt him) with hlt | rfl
    · exact ih ht' hat.next hq' hlt hs' hd hf'
    · -- its first target gets what the source has
      have hat' := hat.next
      have hd' : d ∉ rem e.remfds es := hd
      clear ih
      generalize hc0 : ({ finishEntry i c with nomap := false } : Child φ) = c0 at h ht' hq'
      have hs0 : c0.src (i + 1) = d := by rw [← hc0]; exact hs'
      have hf0 : c0.fds d ≠ some f := by rw [← hc0]; exact hf'
      cases hts : e.remfds with
      | nil =>
        obtain ⟨k,hk⟩ : ∃ k, spec[i + 1]? = some k := ⟨_,List.getElem?_eq_getElem hm⟩
        have hlater := hat.later 0
        rw [Nat.add_zero,List.getElem?_cons_zero] at hlater
        exact (ha.some e (List.mem_of_getElem? hlater) hts).elim
      | cons t ts =>
        rw [hts] at h hat' hq' hd'
        have hmem := hat'.mem
        cases h with
        | @target _ _ _ _ _ c' hc hrun =>
          have htook := ht'.tookOf ha hat' hp hc
          obtain ⟨hq2,-⟩ := htook.quiet hq' (hat'.once ha)
          refine ⟨t,hmem,hrun.never (ht'.step htook) ha hat'.step hp hq2 (hat'.once ha) ?_⟩
          have htd : t ≠ d := fun he => hd' (he ▸ List.mem_cons_self)
          cases htook with
          | same hsame => exact (htd (hsame.trans hs0)).elim
          | plain hne hb g hg =>
            show (if t = t then some g else c0.fds t) ≠ some f
            rw [if_pos rfl,← hg,hs0]
            exact hf0
          | moved hne hb d' j g hd0 h0 hopen hij hj hsj hg =>
            show (if t = t then some g else _) ≠ some f
            rw [if_pos rfl,← hg,hs0]
            show (if d = d' then c0.fds t else c0.fds d) ≠ some f
            split
            · exact hq' t List.mem_cons_self hb
            · exact hf0
  | @target i t ts es c c' hc h ih =>
    have htook := ht.tookOf ha hat hp hc
    obtain ⟨hq',hne⟩ := htook.quiet hq (hat.once ha)
    have hdt : d ≠ t := fun he => hd (he ▸ List.mem_cons_self)
    refine ih (ht.step htook) hat.step hq' him ?_ (fun hm => hd (List.mem_cons_of_mem _ hm)) (hne d hdt hf)
    cases htook with
    | same hsame => exact hs
    | plain hne' hb g hg => exact hs
    | moved hne' hb d' j g hd' h0 hopen hij hj hsj hg =>
      show (if m = j then d' else c.src m) = d
      rw [if_neg ?_,hs]
      rintro rfl
      exact hdt (hs.symm.trans hsj)

end Catlib.Pspawn
