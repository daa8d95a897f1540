import Catlib.Process.PspawnSteps

/-! # What set_up_fds does to the files

While the steps are clean, each entry to come has its file at its source, each target done the file
of its entry, and nothing else is open but the return pipe.
-/
namespace Catlib.Pspawn

variable {φ : Type*} {spec es : List FdEntry} {e : FdEntry} {i j k m : ℕ} {ts : List ℤ} {t d r : ℤ} {c c' cf : Child φ}
  {done : List (ℤ × ℕ)} {f : φ} {fds : FdTable φ}

/-- The state between two targets, in terms of the files at the call. -/
structure Sound (spec : List FdEntry) (r : ℤ) (fds : FdTable φ) (i : ℕ) (done : List (ℤ × ℕ)) (c : Child φ) : Prop where
  source : ∀ j, i ≤ j → j < spec.length → c.fds (c.src j) = fds (orig spec j)
  target : ∀ x ∈ done, c.fds x.1 = fds (orig spec x.2)
  ret : c.fds r = fds r
  same : ∀ j k, i ≤ j → i ≤ k → j < spec.length → k < spec.length → orig spec j = orig spec k → c.src j = c.src k
  quiet : ∀ j, i ≤ j → j < spec.length →
    c.src j = orig spec j ∨ orig spec j ∈ done.map Prod.fst ∧ c.pipefds (c.src j) = false
  held : ∀ d, c.fds d ≠ none → d ∈ done.map Prod.fst ∨ d = r ∨ ∃ j, i ≤ j ∧ j < spec.length ∧ c.src j = d

theorem orig_mem (hj : j < spec.length) : ∃ e ∈ spec, e.pipefd = orig spec j := by
  refine ⟨spec[j],List.getElem_mem hj,?_⟩
  rw [orig,List.getD_eq_getElem?_getD,List.getElem?_map,List.getElem?_eq_getElem hj]
  rfl

theorem mem_orig (he : e ∈ spec) : ∃ j, j < spec.length ∧ orig spec j = e.pipefd := by
  obtain ⟨j,hj,rfl⟩ := List.mem_iff_getElem.1 he
  refine ⟨j,hj,?_⟩
  rw [orig,List.getD_eq_getElem?_getD,List.getElem?_map,List.getElem?_eq_getElem hj]
  rfl

theorem Descriptors.orig (hd : Descriptors spec r fds) (hj : j < spec.length) : fds (orig spec j) ≠ none := by
  obtain ⟨e,he,h⟩ := orig_mem hj
  rw [← h]
  exact hd.source e he

theorem pairs_lt {x : ℤ × ℕ} (hx : x ∈ pairs spec) : x.2 < spec.length := by
  obtain ⟨k,e,he,hk,-⟩ := mem_pairsFrom.1 hx
  rw [hk,Nat.zero_add]
  exact (List.getElem?_eq_some_iff.1 he).1

theorem At.sub (h : At spec i ts es done) {x : ℤ × ℕ} (hx : x ∈ done) : x ∈ pairs spec := by
  rw [← h.split]
  exact List.mem_append_left _ hx

theorem Sound.opened (hs : Sound spec r fds i done c) (ht : Tidy spec r i done c) (hat : At spec i ts es done)
    (hd : Descriptors spec r fds) (hb : c.pipefds d = true) : c.fds d ≠ none := by
  by_cases hdone : d ∈ done.map Prod.fst
  · obtain ⟨x,hx,rfl⟩ := List.mem_map.1 hdone
    rw [hs.target x hx]
    exact hd.orig (pairs_lt (hat.sub hx))
  · rcases ht.owner d hb hdone with rfl | ⟨j,hij,hj,rfl⟩
    · rw [hs.ret]
      exact hd.ret
    · rw [hs.source j hij hj]
      exact hd.orig hj

/-! ## Clean steps -/

theorem Sound.step (hs : Sound spec r fds i done c) (ht : Tidy spec r i done c) (hat : At spec i (t :: ts) es done)
    (ha : Accepted spec) (hd : Descriptors spec r fds) (hc : Took spec.length i c t c')
    (hclean : CleanTarget spec.length i c t) : Sound spec r fds i (done ++ [(t,i)]) c' := by
  have hfresh : t ∉ done.map Prod.fst := hat.fresh ha List.mem_cons_self
  have hi := hat.lt
  have hmono : ∀ d, d ∈ done.map Prod.fst → d ∈ (done ++ [(t,i)]).map Prod.fst :=
    fun d hd => (fst_append_single done (t,i) d).2 (Or.inl hd)
  have htake : t ∈ (done ++ [(t,i)]).map Prod.fst := (fst_append_single done (t,i) t).2 (Or.inr rfl)
  cases hc with
  | same hsame =>
    refine ⟨hs.source,fun x hx => ?_,hs.ret,hs.same,fun j hij hj => (hs.quiet j hij hj).imp id (And.imp (hmono _) id),
      fun d hopen => (hs.held d hopen).imp (hmono d) id⟩
    rcases List.mem_append.1 hx with hx | hx
    · exact hs.target x hx
    · rw [List.mem_singleton.1 hx]
      show c.fds t = _
      rw [hsame]
      exact hs.source i (Nat.le_refl i) hi
  | plain hne hb f hf =>
    obtain ⟨hret,hlater⟩ := hclean hne
    rw [ht.ret] at hret
    have hsrc : ∀ j, i ≤ j → j < spec.length → c.src j ≠ t := by
      intro j hij hj hjt
      rcases Nat.lt_or_eq_of_le hij with hlt | rfl
      · rw [(hlater j hlt hj hjt).1] at hb
        cases hb
      · exact hne hjt.symm
    have hset : ∀ d, d ≠ t → c.fds.set t (some f) d = c.fds d := fun d hd => if_neg hd
    refine ⟨fun j hij hj => (hset _ (hsrc j hij hj)).trans (hs.source j hij hj),fun x hx => ?_,
      (hset r hret.symm).trans hs.ret,hs.same,fun j hij hj => ?_,fun x hx => ?_⟩
    · rcases List.mem_append.1 hx with hx | hx
      · exact (hset _ fun he => hfresh (he ▸ List.mem_map.2 ⟨x,hx,rfl⟩)).trans (hs.target x hx)
      · rw [List.mem_singleton.1 hx]
        show (if t = t then some f else _) = _
        rw [if_pos rfl,← hf]
        exact hs.source i (Nat.le_refl i) hi
    · refine (hs.quiet j hij hj).imp id fun h => ⟨hmono _ h.1,?_⟩
      show clearBit c.pipefds (c.src i) (c.src j) = false
      rw [clearBit,h.2,ite_self]
    · by_cases hxt : x = t
      · exact Or.inl (hxt ▸ htake)
      · have hx' : c.fds x ≠ none := hset x hxt ▸ hx
        exact (hs.held x hx').imp (hmono x) id
  | moved hne hb d j f hfree h0 hopen hij hj hjt hf =>
    obtain ⟨hret,hlater⟩ := hclean hne
    rw [ht.ret] at hret
    have honly : ∀ k, i ≤ k → k < spec.length → k ≠ j → c.src k ≠ t := by
      intro k hik hk hkj hkt
      rcases Nat.lt_or_eq_of_le hik with hlt | rfl
      · exact hkj ((hlater j hij hj hjt).2 k hlt hk hkt)
      · exact hne hkt.symm
    -- the free descriptor is none of those in use
    have hdt : d ≠ t := fun h => hopen (h ▸ hfree)
    have hdr : d ≠ r := fun h => hd.ret (hs.ret ▸ h ▸ hfree)
    have hdsrc : ∀ k, i ≤ k → k < spec.length → c.src k ≠ d := fun k hik hk h =>
      hd.orig hk (hs.source k hik hk ▸ h ▸ hfree)
    have hset : ∀ x, x ≠ t → x ≠ d → ((c.fds.set d (c.fds t)).set t (some f)) x = c.fds x :=
      fun x hxt hxd => (if_neg hxt).trans (if_neg hxd)
    have hsrc : ∀ k, k ≠ j → (if k = j then d else c.src k) = c.src k := fun k hk => if_neg hk
    have hnew : ((c.fds.set d (c.fds t)).set t (some f)) d = c.fds t := (if_neg hdt).trans (if_pos rfl)
    have hown : c.fds (c.src i) = some f := by
      rw [← hf]
      exact (if_neg (hdsrc i (Nat.le_refl i) hi)).symm
    refine ⟨fun k hik hk => ?_,fun x hx => ?_,(hset r hret.symm hdr.symm).trans hs.ret,fun k l hik hil hk hl hkl => ?_,
      fun k hik hk => ?_,fun x hx => ?_⟩
    · show ((c.fds.set d (c.fds t)).set t (some f)) (if k = j then d else c.src k) = _
      by_cases hkj : k = j
      · subst hkj
        rw [if_pos rfl,hnew,← hjt]
        exact hs.source k hik hk
      · rw [if_neg hkj,hset _ (honly k hik hk hkj) (hdsrc k hik hk)]
        exact hs.source k hik hk
    · rcases List.mem_append.1 hx with hx | hx
      · refine (hset _ (fun he => hfresh (he ▸ List.mem_map.2 ⟨x,hx,rfl⟩)) ?_).trans (hs.target x hx)
        · rintro rfl
          exact hd.orig (pairs_lt (hat.sub hx)) (hs.target x hx ▸ hfree)
      · rw [List.mem_singleton.1 hx]
        show (if t = t then some f else _) = _
        rw [if_pos rfl,← hown]
        exact hs.source i (Nat.le_refl i) hi
    · have hkl' := hs.same k l hik hil hk hl hkl
      show (if k = j then d else c.src k) = if l = j then d else c.src l
      by_cases hkj : k = j
      · by_cases hlj : l = j
        · rw [if_pos hkj,if_pos hlj]
        · subst hkj
          exact (honly l hil hl hlj (hkl'.symm.trans hjt)).elim
      · by_cases hlj : l = j
        · subst hlj
          exact (honly k hik hk hkj (hkl'.trans hjt)).elim
        · rw [if_neg hkj,if_neg hlj]
          exact hkl'
    · show (if k = j then d else c.src k) = _ ∨ _ ∧ clearBit c.pipefds (c.src i) (if k = j then d else c.src k) = false
      by_cases hkj : k = j
      · subst hkj
        rw [if_pos rfl]
        refine Or.inr ⟨?_,?_⟩
        · rcases hs.quiet k hik hk with h | h
          · rw [← h,hjt]
            exact htake
          · exact hmono _ h.1
        · cases hbit : clearBit c.pipefds (c.src i) d with
          | false => rfl
          | true => exact (hs.opened ht hat hd (clearBit_true hbit).2 hfree).elim
      · rw [if_neg hkj]
        refine (hs.quiet k hik hk).imp id fun h => ⟨hmono _ h.1,?_⟩
        rw [clearBit,h.2,ite_self]
    · by_cases hxt : x = t
      · exact Or.inl (hxt ▸ htake)
      by_cases hxd : x = d
      · exact Or.inr (Or.inr ⟨j,by omega,hj,(if_pos rfl).trans hxd.symm⟩)
      have hx' : c.fds x ≠ none := hset x hxt hxd ▸ hx
      rcases hs.held x hx' with h | h | ⟨k,hik,hk,rfl⟩
      · exact Or.inl (hmono x h)
      · exact Or.inr (Or.inl h)
      · refine Or.inr (Or.inr ⟨k,hik,hk,hsrc k ?_⟩)
        rintro rfl
        exact hxt hjt

theorem Sound.finish (hs : Sound spec r fds i done c) (ht : Tidy spec r i done c) (hat : At spec i [] es done)
    (hclean : CleanClose spec i c) : Sound spec r fds (i + 1) done { finishEntry i c with nomap := false } := by
  obtain ⟨hbits,-⟩ := finish_bits i c
  have hsrc : ∀ j, i + 1 ≤ j → (finishEntry i c).src j = c.src j := fun j hj => finish_src i c (by omega)
  -- only the source of the entry is closed, and it is none of those in use
  have hkeep : ∀ d, (c.nomap = false → d ≠ c.src i) → (finishEntry i c).fds d = c.fds d := by
    intro d hd
    rw [finishEntry]
    split
    · rfl
    · rename_i hn
      exact if_neg (hd (Bool.eq_false_iff.2 hn))
  refine ⟨fun j hij hj => ?_,fun x hx => ?_,?_,fun j k hij hik hj hk h => ?_,fun j hij hj => ?_,fun d hd => ?_⟩
  · show (finishEntry i c).fds ((finishEntry i c).src j) = _
    rw [hsrc j hij,hkeep _ fun hn => (hclean hn).2.1 j hij hj]
    exact hs.source j (Nat.le_of_succ_le hij) hj
  · refine (hkeep x.1 fun hn he => ?_).trans (hs.target x hx)
    rcases Nat.lt_or_eq_of_le (hat.le x hx) with hlt | heq
    · obtain ⟨k,e,hk,hxk,hxe⟩ := mem_pairsFrom.1 (hat.sub hx)
      obtain rfl : x.2 = k := hxk.trans (Nat.zero_add k)
      refine (hclean hn).2.2 e ?_ (he ▸ hxe)
      exact List.mem_of_getElem? ((List.getElem?_take_of_lt hlt).trans hk)
    · have hin : (c.src i,i) ∈ done := by
        rw [← he,← heq]
        exact hx
      rw [ht.flag.2 hin] at hn
      cases hn
  · refine (hkeep r fun hn he => ?_).trans hs.ret
    exact (hclean hn).1 (he.symm.trans ht.ret.symm)
  · show (finishEntry i c).src j = (finishEntry i c).src k
    rw [hsrc j hij,hsrc k hik]
    exact hs.same j k (Nat.le_of_succ_le hij) (Nat.le_of_succ_le hik) hj hk h
  · show (finishEntry i c).src j = _ ∨ _ ∧ (finishEntry i c).pipefds ((finishEntry i c).src j) = false
    rw [hsrc j hij,hbits]
    exact hs.quiet j (Nat.le_of_succ_le hij) hj
  · change (finishEntry i c).fds d ≠ none at hd
    have hopen : c.fds d ≠ none := by
      rcases finish_fds i c d with h | h
      · rw [← h]
        exact hd
      · exact (hd h).elim
    rcases hs.held d hopen with h | h | ⟨j,hij,hj,rfl⟩
    · exact Or.inl h
    · exact Or.inr (Or.inl h)
    · rcases Nat.lt_or_eq_of_le hij with hlt | rfl
      · exact Or.inr (Or.inr ⟨j,hlt,hj,hsrc j hlt⟩)
      · cases hn : c.nomap with
        | true => exact Or.inl (List.mem_map.2 ⟨_,ht.flag.1 hn,rfl⟩)
        | false =>
          rw [finishEntry,hn] at hd
          exact (hd (if_pos rfl)).elim

/-! ## The start -/

theorem start_tidy (spec : List FdEntry) (r : ℤ) (fds : FdTable φ) : Tidy spec r 0 [] (startChild spec r fds) := by
  refine ⟨rfl,fun m hm => (Nat.not_lt_zero m hm).elim,fun d hb _ => ?_,fun j _ _ => Or.inl rfl,
    iff_of_false (nomatch ·) (List.not_mem_nil ·),fun _ ⟨t,ht⟩ => (List.not_mem_nil ht).elim⟩
  rcases of_decide_eq_true hb with h | h
  · exact Or.inl h
  · obtain ⟨e,he,rfl⟩ := List.mem_map.1 h
    obtain ⟨j,hj,ho⟩ := mem_orig he
    exact Or.inr ⟨j,Nat.zero_le j,hj,ho⟩

theorem start_at (h : spec = e :: es) : At spec 0 e.remfds es [] := by
  subst h
  exact ⟨rfl,Nat.add_comm _ _,nofun,fun k => by rw [Nat.zero_add,Nat.add_comm,List.getElem?_cons_succ]⟩

/-- The table when the parent's ends are closed. -/
def closeEnds (spec : List FdEntry) (fds : FdTable φ) : FdTable φ :=
  spec.foldl (fun t e => if 0 ≤ e.locfd then closeFd t e.locfd else t) fds

theorem closeEnds_some : closeEnds spec fds d = some f ↔ fds d = some f ∧ ∀ e ∈ spec, 0 ≤ d → e.locfd ≠ d := by
  induction spec generalizing fds with
  | nil => exact ⟨fun h => ⟨h,nofun⟩,fun h => h.1⟩
  | cons e es ih =>
    have hone : (if 0 ≤ e.locfd then closeFd fds e.locfd else fds) d = some f ↔ fds d = some f ∧ (0 ≤ d → e.locfd ≠ d) := by
      split
      · rename_i h0
        show (if d = e.locfd then none else fds d) = some f ↔ _
        split
        · rename_i he
          exact iff_of_false nofun fun h => h.2 (he ▸ h0) he.symm
        · rename_i hne
          exact ⟨fun h => ⟨h,fun _ he => hne he.symm⟩,fun h => h.1⟩
      · rename_i h0
        exact ⟨fun h => ⟨h,fun hd he => h0 (he ▸ hd)⟩,fun h => h.1⟩
    show closeEnds es _ d = _ ↔ _
    rw [ih,hone,List.forall_mem_cons,and_assoc]

theorem start_fds (hd : Descriptors spec r fds) : (startChild spec r fds).fds d = some f ↔
    (startChild spec r fds).pipefds d = true ∧ fds d = some f ∧ ∀ e ∈ spec, e.locfd ≠ d := by
  have hends : closeEnds spec fds d = some f ↔ fds d = some f ∧ ∀ e ∈ spec, 0 ≤ d → e.locfd ≠ d := closeEnds_some
  show (if 0 ≤ d ∧ d < maxFds ∧ (startChild spec r fds).pipefds d = false then none else closeEnds spec fds d) = some f ↔ _
  constructor
  · intro h
    split at h
    · cases h
    · rename_i hno
      obtain ⟨hf,hne⟩ := hends.1 h
      obtain ⟨h0,hmax⟩ := hd.range d (by rw [hf]; exact nofun)
      refine ⟨?_,hf,fun e he => hne e he h0⟩
      cases hb : (startChild spec r fds).pipefds d with
      | true => rfl
      | false => exact (hno ⟨h0,hmax,hb⟩).elim
  · rintro ⟨hb,hf,hne⟩
    rw [if_neg fun h => by rw [hb] at h; exact nomatch h.2.2]
    exact hends.2 ⟨hf,fun e he _ => hne e he⟩

theorem start_ret (spec : List FdEntry) (r : ℤ) (fds : FdTable φ) : (startChild spec r fds).pipefds r = true :=
  decide_eq_true (Or.inl rfl)

theorem start_source (he : e ∈ spec) : (startChild spec r fds).pipefds e.pipefd = true :=
  decide_eq_true (Or.inr (List.mem_map.2 ⟨e,he,rfl⟩))

theorem start_sound (hd : Descriptors spec r fds) (hclean : CleanStart spec r) :
    Sound spec r fds 0 [] (startChild spec r fds) := by
  have hkeep : ∀ d, (startChild spec r fds).pipefds d = true → fds d ≠ none → (∀ e ∈ spec, e.locfd ≠ d) →
      (startChild spec r fds).fds d = fds d := by
    intro d hb hopen hne
    obtain ⟨f,hf⟩ := Option.ne_none_iff_exists'.1 hopen
    rw [hf]
    exact (start_fds hd).2 ⟨hb,hf,hne⟩
  refine ⟨fun j _ hj => ?_,nofun,?_,fun _ _ _ _ _ _ h => h,fun _ _ _ => Or.inl rfl,fun d hopen => ?_⟩
  · obtain ⟨e,he,ho⟩ := orig_mem hj
    show (startChild spec r fds).fds (orig spec j) = _
    rw [← ho]
    exact hkeep _ (start_source he) (hd.source e he) fun e' he' => (hclean e' he').2 e he
  · exact hkeep r (start_ret spec r fds) hd.ret fun e he => (hclean e he).1
  · obtain ⟨f,hf⟩ := Option.ne_none_iff_exists'.1 hopen
    exact (start_tidy spec r fds).owner d ((start_fds hd).1 hf).1 List.not_mem_nil |> Or.inr

/-! ## Clean runs -/

/-- Every target has the file of its entry, and the return pipe its own. -/
def Given (spec : List FdEntry) (r : ℤ) (fds : FdTable φ) (c : Child φ) : Prop :=
  (∀ x ∈ pairs spec, c.fds x.1 = fds (orig spec x.2)) ∧ c.fds r = fds r

theorem Runs.given (hrun : Runs spec.length cf i ts es c) (hclean : CleanRun spec i ts es c) (ht : Tidy spec r i done c)
    (hs : Sound spec r fds i done c) (hat : At spec i ts es done) (ha : Accepted spec) (hd : Descriptors spec r fds) :
    Given spec r fds cf := by
  induction hrun generalizing done with
  | @last i c h =>
    cases hclean with
    | last hclose =>
      have hs' := hs.finish ht hat hclose
      have hsplit := hat.split
      rw [List.map_nil,List.nil_append,pairsFrom,List.append_nil] at hsplit
      rw [← h,Given,← hsplit]
      exact ⟨hs'.target,hs'.ret⟩
  | next h ih =>
    cases hclean with
    | next hclose hclean => exact ih hclean (ht.finish hat.le (hat.target ha)) (hs.finish ht hat hclose) hat.next
  | target hc h ih =>
    cases hclean with
    | target htarget hclean =>
      have hr := fun hne => ht.ret ▸ (htarget hne).1
      have htook := ht.took hat.lt (hat.fresh ha List.mem_cons_self) (ha.nonneg _ hat.mem) hr hc
      exact ih (hclean _ hc) (ht.step htook) (hs.step ht hat ha hd htook htarget) hat.step

end Catlib.Pspawn
