import Catlib.Process.PspawnSound

/-! # When set_up_fds maps the files

Where no two descriptors have the same open file, the first step that is not clean loses a file for
good, and some target or the return pipe ends without it.
-/
namespace Catlib.Pspawn

variable {φ : Type*} {spec es : List FdEntry} {e : FdEntry} {n i j k m : ℕ} {ts : List ℤ} {t d r x s : ℤ} {c c' cf : Child φ}
  {done : List (ℤ × ℕ)} {f : φ} {fds : FdTable φ}

/-- No two descriptors have the same open file. -/
def Distinct (fds : FdTable φ) : Prop := ∀ d d', fds d ≠ none → fds d = fds d' → d = d'

/-! ## The return pipe -/

theorem setUpFd_ret (hc : setUpFd n c t s = some c') (hn : n ≠ 0) : c'.retfd = c.retfd := by
  rw [setUpFd] at hc
  split at hc
  · cases hc
    rfl
  split at hc
  · obtain ⟨⟨d,tab⟩,-,hc⟩ := Option.bind_eq_some_iff.1 hc
    obtain ⟨tab',-,hc⟩ := Option.bind_eq_some_iff.1 hc
    obtain ⟨c1,hun,hc⟩ := Option.map_eq_some_iff.1 hc
    rw [unblock,blocking] at hun
    cases hfind : (List.range n).find? fun j => c.src j = t with
    | none =>
      simp only [hfind,if_neg hn] at hun
      cases hun
      rw [← hc]
    | some j =>
      simp only [hfind] at hun
      cases hun
      rw [← hc]
  · obtain ⟨tab',-,hc⟩ := Option.map_eq_some_iff.1 hc
    rw [← hc]

theorem Runs.ret (hrun : Runs n cf i ts es c) (hn : n ≠ 0) : cf.retfd = c.retfd := by
  induction hrun with
  | last h => rw [← h,(finish_bits _ _).2]
  | next h ih => exact ih.trans (finish_bits _ _).2
  | target hc h ih => exact ih.trans (setUpFd_ret hc hn)

theorem mapped_iff (hret : cf.retfd = r) : Mapped spec r fds cf ↔ Given spec r fds cf := by
  rw [Mapped,Given,hret]
  refine and_congr_left fun _ => ⟨fun h x hx => ?_,fun h e he t ht => ?_⟩
  · obtain ⟨k,e,hk,hxk,hxe⟩ := mem_pairsFrom.1 hx
    obtain ⟨hlt,rfl⟩ := List.getElem?_eq_some_iff.1 hk
    rw [h _ (List.getElem_mem hlt) x.1 hxe,hxk,Nat.zero_add,orig,List.getD_eq_getElem?_getD,List.getElem?_map,hk]
    rfl
  · obtain ⟨j,hj,rfl⟩ := List.mem_iff_getElem.1 he
    have hk := List.getElem?_eq_getElem hj
    rw [h (t,j) (mem_pairsFrom.2 ⟨j,_,hk,(Nat.zero_add j).symm,ht⟩),orig,List.getD_eq_getElem?_getD,List.getElem?_map,hk]
    rfl

theorem Given.spared (h : Given spec r fds cf) (hd : Descriptors spec r fds) (hdist : Distinct fds) : Spared spec r := by
  intro x hx hxr
  have hf := h.1 x hx
  rw [hxr,h.2] at hf
  exact (hdist r _ hd.ret hf).symm

/-! ## Where a file is -/

theorem Sound.only (hs : Sound spec r fds i done c) (hd : Descriptors spec r fds) (hdist : Distinct fds) (him : i ≤ m)
    (hm : m < spec.length) (hx : x ∉ done.map Prod.fst) (hf : c.fds x = fds (orig spec m)) : x = c.src m := by
  rcases hs.held x (hf ▸ hd.orig hm) with h | rfl | ⟨k,hik,hk,rfl⟩
  · exact (hx h).elim
  · have ho := hdist x _ hd.ret (hs.ret.symm.trans hf)
    rcases hs.quiet m him hm with h | h
    · exact ho.trans h.symm
    · exact (hx (ho ▸ h.1)).elim
  · exact hs.same k m hik him hk hm (hdist _ _ (hd.orig hk) ((hs.source k hik hk).symm.trans hf))

theorem Sound.onlyRet (hs : Sound spec r fds i done c) (hd : Descriptors spec r fds) (hdist : Distinct fds)
    (hx : x ∉ done.map Prod.fst) (hb : c.pipefds x = true) (hf : c.fds x = fds r) : x = r := by
  rcases hs.held x (hf ▸ hd.ret) with h | h | ⟨k,hik,hk,rfl⟩
  · exact (hx h).elim
  · exact h
  · have ho := hdist _ _ (hd.orig hk) ((hs.source k hik hk).symm.trans hf)
    rcases hs.quiet k hik hk with h | h
    · exact h.trans ho
    · rw [h.2] at hb
      cases hb

/-! ## Steps that are not clean -/

theorem Sound.overwritten (hs : Sound spec r fds i done c) (ht : Tidy spec r i done c) (hat : At spec i (t :: ts) es done)
    (ha : Accepted spec) (hd : Descriptors spec r fds) (hdist : Distinct fds) (hp : Spared spec r)
    (hrun : Runs spec.length cf i ts es c') (hc : Took spec.length i c t c') (hne : t ≠ c.src i) (him : i < m)
    (hm : m < spec.length) (hmt : c.src m = t) (hmt' : c'.src m = t) : ¬Given spec r fds cf := by
  intro hgiven
  obtain ⟨f,hf⟩ := Option.ne_none_iff_exists'.1 (hd.orig hm)
  have hi := hat.lt
  have hrem : ∀ x ∈ rem ts es, x ∉ done.map Prod.fst := fun x hx => hat.fresh ha (List.mem_cons_of_mem _ hx)
  have honly : ∀ x ∈ rem ts es, c.fds x ≠ some f := by
    intro x hx he
    have := hs.only hd hdist (Nat.le_of_lt him) hm (hrem x hx) (he.trans hf.symm)
    exact hat.once ha (hmt ▸ this ▸ hx)
  have hdiff : c.fds (c.src i) ≠ some f := by
    intro he
    have ho := hdist _ _ (hd.orig hi) ((hs.source i (Nat.le_refl i) hi).symm.trans (he.trans hf.symm))
    exact hne (hmt ▸ (hs.same i m (Nat.le_refl i) (Nat.le_of_lt him) hi hm ho).symm)
  -- the descriptor that gets the file, if any, is not in the bit set
  have hstep : Quiet f (rem ts es) c' ∧ c'.fds t ≠ some f := by
    cases hc with
    | same hsame => exact (hne hsame).elim
    | plain hne' hb g hg =>
      refine ⟨fun x hx _ => ?_,?_⟩
      · show (if x = t then some g else c.fds x) ≠ _
        rw [if_neg fun he : x = t => hat.once ha (he ▸ hx)]
        exact honly x hx
      · show (if t = t then some g else c.fds t) ≠ _
        rw [if_pos rfl,← hg]
        exact hdiff
    | moved hne' hb d j g hfree h0 hopen hij hj hjt hg =>
      have hid : c.src i ≠ d := fun he => hd.orig hi (hs.source i (Nat.le_refl i) hi ▸ he ▸ hfree)
      refine ⟨fun x hx hbit => ?_,?_⟩
      · have hxd : x ≠ d := fun he => hs.opened ht hat hd (clearBit_true hbit).2 (he ▸ hfree)
        show (if x = t then some g else if x = d then c.fds t else c.fds x) ≠ _
        rw [if_neg fun he : x = t => hat.once ha (he ▸ hx),if_neg hxd]
        exact honly x hx
      · show (if t = t then some g else _) ≠ _
        rw [if_pos rfl,← hg]
        show (if c.src i = d then c.fds t else c.fds (c.src i)) ≠ _
        rw [if_neg hid]
        exact hdiff
  obtain ⟨x,hx,hne⟩ := hrun.starved (ht.step hc) ha hat.step hp hstep.1 him hm hmt' (hat.once ha) hstep.2
  exact hne ((hgiven.1 _ hx).trans hf)

theorem Sound.cleanTarget (hs : Sound spec r fds i done c) (ht : Tidy spec r i done c) (hat : At spec i (t :: ts) es done)
    (ha : Accepted spec) (hd : Descriptors spec r fds) (hdist : Distinct fds) (hp : Spared spec r)
    (hrun : Runs spec.length cf i ts es c') (hc : Took spec.length i c t c') (hgiven : Given spec r fds cf) :
    CleanTarget spec.length i c t := by
  intro hne
  refine ⟨ht.ret ▸ ht.spared ha hat hp hne,fun j hij hj hjt => ?_⟩
  have hstay : ∀ m, i < m → m < spec.length → c.src m = t → c'.src m ≠ t := fun m him hm hmt hmt' =>
    hs.overwritten ht hat ha hd hdist hp hrun hc hne him hm hmt hmt' hgiven
  cases hc with
  | same hsame => exact (hne hsame).elim
  | plain hne' hb g hg => exact (hstay j hij hj hjt hjt).elim
  | moved hne' hb d l g hfree h0 hopen hil hl hlt hg =>
    -- all but the one that the search finds keep the target for a source
    have hfound : ∀ m, i < m → m < spec.length → c.src m = t → m = l := by
      intro m him hm hmt
      by_contra hml
      exact hstay m him hm hmt ((if_neg hml).trans hmt)
    exact ⟨hb,fun k hik hk hkt => (hfound k hik hk hkt).trans (hfound j hij hj hjt).symm⟩

theorem finish_some (hn : c.nomap = false) : (finishEntry i c).fds d = some f ↔ d ≠ c.src i ∧ c.fds d = some f := by
  rw [finishEntry,hn]
  show (if d = c.src i then none else c.fds d) = some f ↔ _
  split
  · rename_i h
    exact iff_of_false (by rintro ⟨⟩) fun hne => hne.1 h
  · rename_i h
    exact ⟨fun hf => ⟨h,hf⟩,And.right⟩

theorem Runs.closed (hrun : Runs spec.length cf i [] es c) (ht : Tidy spec r i done c) (ha : Accepted spec)
    (hat : At spec i [] es done) (hp : Spared spec r) (hn : c.nomap = false) (hq : Quiet f (rem [] es) c)
    (hd : c.src i ∉ rem [] es) : cf.fds (c.src i) ≠ some f := by
  have hlost : (finishEntry i c).fds (c.src i) ≠ some f := fun h => ((finish_some hn).1 h).1 rfl
  cases hrun with
  | last h =>
    rw [← h]
    exact hlost
  | next h => exact h.never (ht.finish hat.le (hat.target ha)) ha hat.next hp (finish_quiet hq) hd hlost

theorem At.later_pair (h : At spec i [] es done) (hx : x ∈ rem [] es) : ∃ k, i < k ∧ k < spec.length ∧ (x,k) ∈ pairs spec := by
  rw [rem,List.nil_append,← pairsFrom_fst es (i + 1)] at hx
  obtain ⟨y,hy,rfl⟩ := List.mem_map.1 hx
  have hpair : y ∈ pairs spec := by
    rw [← h.split]
    exact List.mem_append_right _ (List.mem_append_right _ hy)
  obtain ⟨k,-,-,hk,-⟩ := mem_pairsFrom.1 hy
  exact ⟨y.2,by omega,pairs_lt hpair,hpair⟩

theorem Sound.laterSource (hs : Sound spec r fds i done c) (ht : Tidy spec r i done c) (hat : At spec i [] es done)
    (ha : Accepted spec) (hd : Descriptors spec r fds) (hdist : Distinct fds) (hp : Spared spec r)
    (hrun : Runs spec.length cf i [] es c) (hgiven : Given spec r fds cf) (hn : c.nomap = false) (hij : i < j)
    (hj : j < spec.length) : c.src j ≠ c.src i := by
  intro heq
  obtain ⟨f,hf⟩ := Option.ne_none_iff_exists'.1 (hd.orig hj)
  have hfresh : ∀ x ∈ rem [] es, x ∉ done.map Prod.fst := fun x hx => hat.fresh ha hx
  have hlost : ∀ x ∈ rem [] es, (finishEntry i c).fds x ≠ some f := by
    intro x hx hfx
    obtain ⟨hne,hfx⟩ := (finish_some hn).1 hfx
    exact hne ((hs.only hd hdist (Nat.le_of_lt hij) hj (hfresh x hx) (hfx.trans hf.symm)).trans heq)
  cases hrun with
  | last h =>
    have hlen := hat.len
    rw [List.length_nil] at hlen
    omega
  | next h =>
    obtain ⟨x,hx⟩ := ha.target hj
    refine h.cold (ht.finish hat.le (hat.target ha)) ha hat.next hp (fun y hy _ => hlost y hy) (fun k hik hk => ?_)
      (hlost x (hat.mem_rem hij hx)) ((hgiven.1 _ hx).trans hf)
    -- a source to come with the file would be the one that is closed
    show (finishEntry i c).fds ((finishEntry i c).src k) ≠ some f
    rw [finish_src i c (by omega)]
    intro hfk
    obtain ⟨hne,hfk⟩ := (finish_some hn).1 hfk
    have ho := hdist _ _ (hd.orig hk) ((hs.source k (by omega) hk).symm.trans (hfk.trans hf.symm))
    exact hne ((hs.same k j (by omega) (Nat.le_of_lt hij) hk hj ho).trans heq)

theorem Sound.cleanClose (hs : Sound spec r fds i done c) (ht : Tidy spec r i done c) (hat : At spec i [] es done)
    (ha : Accepted spec) (hd : Descriptors spec r fds) (hdist : Distinct fds) (hp : Spared spec r)
    (hrun : Runs spec.length cf i [] es c) (hgiven : Given spec r fds cf) : CleanClose spec i c := by
  intro hn
  have hlater : ∀ j, i < j → j < spec.length → c.src j ≠ c.src i := fun j hij hj =>
    hs.laterSource ht hat ha hd hdist hp hrun hgiven hn hij hj
  have hi := hat.lt
  have hfresh : ∀ x ∈ rem [] es, x ∉ done.map Prod.fst := fun x hx => hat.fresh ha hx
  refine ⟨fun hret => ?_,hlater,fun e he hmem => ?_⟩
  · rw [ht.ret] at hret
    obtain ⟨f,hf⟩ := Option.ne_none_iff_exists'.1 hd.ret
    have hno : r ∉ rem [] es := by
      intro hr
      obtain ⟨k,hik,hk,hpair⟩ := hat.later_pair hr
      have ho := hp _ hpair rfl
      rcases ht.moved k (Nat.le_of_lt hik) hk with h | h
      · exact hlater k hik hk ((h.trans ho).trans hret.symm)
      · exact hfresh r hr (ho ▸ h)
    have hq : Quiet f (rem [] es) c := fun x hx hb hfx =>
      hno (hs.onlyRet hd hdist (hfresh x hx) hb (hfx.trans hf.symm) ▸ hx)
    refine hrun.closed ht ha hat hp hn hq (hret ▸ hno) ?_
    rw [hret]
    exact hgiven.2.trans hf
  · obtain ⟨m,hm,rfl⟩ := List.mem_iff_getElem.1 he
    rw [List.length_take] at hm
    have hmi : m < i := by omega
    rw [List.getElem_take] at hmem
    have hpair : (c.src i,m) ∈ pairs spec :=
      mem_pairsFrom.2 ⟨m,_,List.getElem?_eq_getElem (by omega),(Nat.zero_add m).symm,hmem⟩
    have hdone := hat.has (Nat.le_of_lt hmi) hpair
    obtain ⟨f,hf⟩ := Option.ne_none_iff_exists'.1 (hd.orig hi)
    have hfm : fds (orig spec m) = some f := (hs.target _ hdone).symm.trans ((hs.source i (Nat.le_refl i) hi).trans hf)
    have hno : c.src i ∉ rem [] es := fun hx => hfresh _ hx (List.mem_map.2 ⟨_,hdone,rfl⟩)
    have hq : Quiet f (rem [] es) c := fun x hx _ hfx =>
      hno (hs.only hd hdist (Nat.le_refl i) hi (hfresh x hx) (hfx.trans hf.symm) ▸ hx)
    exact hrun.closed ht ha hat hp hn hq hno ((hgiven.1 _ hpair).trans hfm)

/-! ## The call -/

theorem Runs.clean (hrun : Runs spec.length cf i ts es c) (ht : Tidy spec r i done c) (hs : Sound spec r fds i done c)
    (hat : At spec i ts es done) (ha : Accepted spec) (hd : Descriptors spec r fds) (hdist : Distinct fds)
    (hgiven : Given spec r fds cf) : CleanRun spec i ts es c := by
  have hp := hgiven.spared hd hdist
  induction hrun generalizing done with
  | last h => exact .last (hs.cleanClose ht hat ha hd hdist hp (.last h) hgiven)
  | next h ih =>
    have hclose := hs.cleanClose ht hat ha hd hdist hp (.next h) hgiven
    exact .next hclose (ih (ht.finish hat.le (hat.target ha)) (hs.finish ht hat hclose) hat.next)
  | @target i t ts es c c' hc h ih =>
    have htook := ht.tookOf ha hat hp hc
    have htarget := hs.cleanTarget ht hat ha hd hdist hp h htook hgiven
    refine .target htarget fun c1 hc1 => ?_
    rw [hc] at hc1
    cases hc1
    exact ih (ht.step htook) (hs.step ht hat ha hd htook htarget) hat.step

theorem cleanStart (hrun : Runs spec.length cf 0 e.remfds es (startChild spec r fds)) (hspec : spec = e :: es)
    (ha : Accepted spec) (hd : Descriptors spec r fds) (hdist : Distinct fds) (hgiven : Given spec r fds cf) :
    CleanStart spec r := by
  have hp := hgiven.spared hd hdist
  have hlost : ∀ e' ∈ spec, ∀ f, fds e'.locfd = some f → ∀ d, cf.fds d ≠ some f := by
    intro e' he' f hf d
    have hall : ∀ x, (startChild spec r fds).fds x ≠ some f := by
      intro x hx
      obtain ⟨-,hfx,hne⟩ := (start_fds hd).1 hx
      exact hne e' he' (hdist _ _ (by rw [hf]; exact nofun) (hf.trans hfx.symm))
    exact hrun.cold (start_tidy spec r fds) ha (start_at hspec) hp (fun x _ _ => hall x) (fun j _ _ => hall _) (hall d)
  intro e' he'
  refine ⟨fun hr => ?_,fun e'' he'' hsrc => ?_⟩
  · obtain ⟨f,hf⟩ := Option.ne_none_iff_exists'.1 hd.ret
    exact hlost e' he' f (hr ▸ hf) r (hgiven.2.trans hf)
  · obtain ⟨j,hj,ho⟩ := mem_orig he''
    obtain ⟨f,hf⟩ := Option.ne_none_iff_exists'.1 (hd.orig hj)
    obtain ⟨x,hx⟩ := ha.target hj
    refine hlost e' he' f ?_ x ((hgiven.1 _ hx).trans hf)
    rw [hsrc,← ho]
    exact hf

/-- Where the call is clean the files are where they belong; where they are, and no two descriptors
had one file, it was. -/
theorem setUpFds_mapped (spec : List FdEntry) (retfd : ℤ) (fds : FdTable φ) (c : Child φ) (hok : specOk spec = true)
    (hd : Descriptors spec retfd fds) (hc : setUpFds spec retfd fds = some c) :
    (Clean spec retfd fds → Mapped spec retfd fds c) ∧ (Distinct fds → (Clean spec retfd fds ↔ Mapped spec retfd fds c)) := by
  have ha := specOk_accepted hok
  cases hspec : spec with
  | nil =>
    subst hspec
    cases hc
    have hstart : CleanStart [] retfd := nofun
    have hmapped : Mapped [] retfd fds (startChild [] retfd fds) :=
      (mapped_iff rfl).2 ⟨nofun,(start_sound hd hstart).ret⟩
    exact ⟨fun _ => hmapped,fun _ => ⟨fun _ => hmapped,fun _ => ⟨hstart,nofun⟩⟩⟩
  | cons e es =>
    rw [← hspec]
    rw [setUpFds,hspec,setUpEntries,← hspec] at hc
    obtain ⟨cm,hm,hrest⟩ := Option.bind_eq_some_iff.1 hc
    have hrun : Runs spec.length c 0 e.remfds es (startChild spec retfd fds) := runs_remfds hm (runs_entries hrest)
    have hret : c.retfd = retfd := hrun.ret (by rw [hspec]; exact Nat.succ_ne_zero _)
    have ht := start_tidy spec retfd fds
    have hgood : Clean spec retfd fds → Mapped spec retfd fds c := fun h =>
      (mapped_iff hret).2 (hrun.given (h.2 e es hspec) ht (start_sound hd h.1) (start_at hspec) ha hd)
    refine ⟨hgood,fun hdist => ⟨hgood,fun h => ?_⟩⟩
    have hgiven := (mapped_iff hret).1 h
    have hstart := cleanStart hrun hspec ha hd hdist hgiven
    refine ⟨hstart,fun e' es' h' => ?_⟩
    cases hspec.symm.trans h'
    exact hrun.clean ht (start_sound hd hstart) (start_at hspec) ha hd hdist hgiven

instance {φ : Type*} [DecidableEq φ] (spec : List FdEntry) (retfd : ℤ) (fds : FdTable φ) (c : Child φ) :
    Decidable (Mapped spec retfd fds c) := inferInstanceAs (Decidable ((∀ e ∈ spec, ∀ t ∈ e.remfds, c.fds t = fds e.pipefd) ∧ _))


/-- A table where each of some descriptors has a file of its own. -/
def table (ds : List ℤ) : FdTable ℤ := fun d => if d ∈ ds then some d else none

theorem table_descriptors {spec : List FdEntry} {r : ℤ} {ds : List ℤ} (hs : ∀ e ∈ spec, e.pipefd ∈ ds) (hr : r ∈ ds)
    (hd : ∀ d ∈ ds, 0 ≤ d ∧ d < maxFds) : Descriptors spec r (table ds) := by
  refine ⟨fun e he => ?_,?_,fun d h => ?_⟩
  · rw [table,if_pos (hs e he)]
    exact nofun
  · rw [table,if_pos hr]
    exact nofun
  · by_cases hmem : d ∈ ds
    · exact hd d hmem
    · exact (h (if_neg hmem)).elim

theorem table_distinct (ds : List ℤ) : Distinct (table ds) := by
  intro d d' hd h
  by_cases hmem : d ∈ ds
  · rw [table,table,if_pos hmem] at h
    by_cases hmem' : d' ∈ ds
    · rw [if_pos hmem'] at h
      exact Option.some.inj h
    · rw [if_neg hmem'] at h
      cases h
  · exact (hd (if_neg hmem)).elim

/-- Two entries whose targets are each other's sources, beside a return pipe. -/
def swapped : List FdEntry := [⟨psfdIn,-1,5,[6]⟩,⟨psfdOut,-1,6,[5]⟩]

theorem setUpFds_mapped_swapped : ∃ c, setUpFds swapped 3 (table [3,5,6]) = some c ∧ Mapped swapped 3 (table [3,5,6]) c ∧
    Clean swapped 3 (table [3,5,6]) := by
  have hd : Descriptors swapped 3 (table [3,5,6]) := table_descriptors (by decide) (by decide) (by decide)
  obtain ⟨c,hc,hm⟩ : ∃ c ∈ setUpFds swapped 3 (table [3,5,6]), Mapped swapped 3 (table [3,5,6]) c := by decide +kernel
  exact ⟨c,hc,hm,((setUpFds_mapped swapped 3 _ c (by decide) hd hc).2 (table_distinct _)).2 hm⟩

/-- An entry whose target is the descriptor of the return pipe. -/
def displaced : List FdEntry := [⟨psfdIn,4,3,[6]⟩]

theorem setUpFds_displaced : specOk displaced = true ∧ Descriptors displaced 6 (table [0,1,2,3,4,6]) ∧
    ∃ c, setUpFds displaced 6 (table [0,1,2,3,4,6]) = some c ∧ ¬Mapped displaced 6 (table [0,1,2,3,4,6]) c := by
  refine ⟨by decide,table_descriptors (by decide) (by decide) (by decide),?_⟩
  obtain ⟨c,hc,hm⟩ : ∃ c ∈ setUpFds displaced 6 (table [0,1,2,3,4,6]), ¬Mapped displaced 6 (table [0,1,2,3,4,6]) c := by
    decide +kernel
  exact ⟨c,hc,hm⟩

end Catlib.Pspawn
