import Catlib.Matching.SuffixTree

/-! # Building suffix trees and searching in them

The loop of `sfx_build` keeps the place where the suffix to come ends in the tree of those before it. Each
turn gives that suffix a leaf, until one is met that goes on with the letter already; the longer ones have
leaves then, the shorter ones are spelled inside the tree.
-/
namespace Catlib.Matching.Sfx
open Function

variable {T w w' : List UInt8} {L i k n : ℕ} {t t' : SfxTree} {path path' : ℕ → List UInt8} {s : Suffix} {e : SfxEdge} {c d x : UInt8}
  {u v p cur fuel : ℕ} {lastpar : Option ℕ} {P : ℕ → Prop}

/-! ## Places in the tree -/

/-- The place `s` is the end of the text from `L` up to `i`; at the root it may be ahead of the text. -/
structure Located (T : List UInt8) (t : SfxTree) (path : ℕ → List UInt8) (L i : ℕ) (s : Suffix) : Prop where
  node : s.node < t.nodes
  word : path s.node <+: T.drop L
  start : L + (path s.node).length = s.start
  stop : s.stop = i
  within : s.start ≤ i ∨ s.start = L
  spelled : ∀ w, w <+: T.drop L → L + w.length ≤ i → Spelled (· < t.nodes) path w

/-- A place that is not a node is on an edge before its end. -/
def Short (T : List UInt8) (t : SfxTree) (s : Suffix) : Prop :=
  s.start < s.stop → ∀ c e, T[s.start]? = some c → t.edges (s.node,c) = some e → s.stop - s.start < e.stop - e.start

/-- The edge that the text goes on along behind the node of the place. -/
structure OnEdge (T : List UInt8) (t : SfxTree) (path : ℕ → List UInt8) (L i : ℕ) (s : Suffix) (c : UInt8) (e : SfxEdge) : Prop where
  letter : T[s.start]? = some c
  edge : t.edges (s.node,c) = some e
  pos : 0 < e.stop - e.start
  longer : (path e.node).length = (path s.node).length + (e.stop - e.start)
  way : ∀ w, w <+: T.drop L → L + w.length = i → w <+: path e.node ∨ path e.node <+: w

theorem Located.onEdge (h : Holds T L t path) (hs : Located T t path L i s) (hlt : s.start < i) (hi : i ≤ T.length) :
    ∃ c e, OnEdge T t path L i s c e := by
  obtain ⟨c,hc⟩ : ∃ c, T[s.start]? = some c := ⟨_,List.getElem?_eq_getElem (hlt.trans_le hi)⟩
  have hnext : path s.node ++ [c] <+: T.drop L := with_letter hs.word (by rw [hs.start,hc])
  obtain ⟨w,hw,hlen⟩ := exists_word (L := L) (by have := hs.start; lia) hi
  have hcw : path s.node ++ [c] <+: w := by
    refine List.prefix_of_prefix_length_le hnext hw ?_
    have := hs.start
    rw [List.length_append,List.length_singleton]
    lia
  obtain ⟨x,rfl⟩ := hcw
  have hsp := hs.spelled _ hw hlen.le
  rw [List.append_assoc,List.singleton_append] at hsp
  obtain ⟨z,hz,hway⟩ := h.trie.locus hs.node hsp
  obtain ⟨e,he,rfl⟩ := edge_of_child hz
  obtain ⟨k,-,-,hstart,hstop⟩ := h.edge he
  have hlonger := h.trie.longer hz
  refine ⟨c,e,hc,he,by lia,by lia,fun w' hw' hlen' => ?_⟩
  obtain rfl := same_word hw' hw (by lia)
  rwa [List.append_assoc]

theorem Located.down (h : Holds T L t path) (hs : Located T t path L i s) (ho : OnEdge T t path L i s c e) (hi : i ≤ T.length)
    (hspan : e.stop - e.start ≤ i - s.start) (hlt : s.start < i) :
    Located T t path L i ⟨e.node,s.start + (e.stop - e.start),s.stop⟩ := by
  have hstart := hs.start
  have hlonger := ho.longer
  obtain ⟨w,hw,hlen⟩ := exists_word (L := L) (by lia) hi
  have hword : path e.node <+: T.drop L := by
    rcases ho.way w hw hlen with hway | hway
    · have := hway.length_le
      rw [← hway.eq_of_length (by lia)]
      exact hw
    · exact hway.trans hw
  exact ⟨(h.trie.below (child_of_edge ho.edge)).2.1,hword,by dsimp only; lia,hs.stop,.inl (by dsimp only; lia),hs.spelled⟩

theorem canonical_spec (h : Holds T L t path) (hs : Located T t path L i s) (hi : i ≤ T.length) (hf : i < fuel) :
    ∃ s', canonical t fuel s = some s' ∧ Located T t path L i s' ∧ Short T t s' := by
  have hstop := hs.stop
  rw [canonical]
  by_cases hex : s.Explicit
  · rw [if_pos hex]
    exact ⟨s,rfl,hs,fun hlt => absurd hlt (Nat.not_lt.mpr hex)⟩
  have hlt : s.start < i := by rw [← hstop]; exact Nat.lt_of_not_le hex
  obtain ⟨c,e,ho⟩ := hs.onEdge h hlt hi
  rw [if_neg hex,h.str,ho.letter,Option.bind_eq_bind,Option.bind_some,ho.edge,Option.bind_eq_bind,Option.bind_some]
  let I : ℕ → Suffix × SfxEdge × ℕ → Prop := fun m x => Located T t path L i x.1 ∧ m = i - x.1.start ∧ 0 < x.2.2 ∧
    (x.1.start < i → ∃ c, OnEdge T t path L i x.1 c x.2.1 ∧ x.2.2 = x.2.1.stop - x.2.1.start)
  refine loop_total (I := I) (n := i - s.start) ?_ ⟨hs,rfl,ho.pos,fun _ => ⟨c,ho,rfl⟩⟩ (by lia)
  rintro m ⟨s,e,span⟩ ⟨hs,hm,hpos,hon⟩
  dsimp only at hs hm hpos hon
  have hstop := hs.stop
  dsimp only [canonicalBody]
  by_cases hspan : span ≤ s.stop - s.start
  · have hlt : s.start < i := by lia
    obtain ⟨c,ho,rfl⟩ := hon hlt
    have hs' := hs.down h ho hi (by lia) hlt
    refine .inl ?_
    rw [if_pos hspan]
    by_cases hlt' : s.start + (e.stop - e.start) < s.stop
    · obtain ⟨c',e',ho'⟩ := hs'.onEdge h (by dsimp only; lia) hi
      have hl := ho'.letter
      have he := ho'.edge
      dsimp only at hl he
      rw [if_pos hlt',h.str,hl,Option.bind_eq_bind,Option.bind_some,he,Option.bind_eq_bind,Option.bind_some]
      exact ⟨_,i - (s.start + (e.stop - e.start)),rfl,by lia,hs',rfl,ho'.pos,fun _ => ⟨c',ho',rfl⟩⟩
    · rw [if_neg hlt']
      exact ⟨_,i - (s.start + (e.stop - e.start)),rfl,by lia,hs',rfl,hpos,fun hlt => absurd hlt (by dsimp only; lia)⟩
  · refine .inr ⟨s,by rw [if_neg hspan],hs,fun hlt c e' hc he' => ?_⟩
    obtain ⟨c',ho,rfl⟩ := hon (by lia)
    rw [ho.letter] at hc
    cases hc
    rw [ho.edge] at he'
    cases he'
    lia

/-! ## Links -/

/-- The link of a node leads to the node of its word without the first letter. -/
def Linked (t : SfxTree) (path : ℕ → List UInt8) (v : ℕ) : Prop := ∃ z < t.nodes, t.sptr v = some z ∧ path z = (path v).tail

/-- All nodes with edges below them are linked, the root and those in `P` aside. -/
def Links (t : SfxTree) (path : ℕ → List UInt8) (P : ℕ → Prop) : Prop :=
  ∀ v < t.nodes, v ≠ 0 → Inner t v → P v ∨ Linked t path v

theorem Links.mono {Q : ℕ → Prop} (hl : Links t path P) (hPQ : ∀ v, P v → Q v) : Links t path Q :=
  fun v hv hne hin => (hl v hv hne hin).imp_left (hPQ v)

theorem Links.grew (hl : Links t path P) (g : Grew t path t' path') (hnew : ∀ v, t.nodes ≤ v → Inner t' v → P v) : Links t' path' P := by
  intro v hv hne hin
  rcases Nat.lt_or_ge v t.nodes with hlt | hge
  · refine (hl v hlt hne ((g.inner v hlt hin).resolve_left hne)).imp_right ?_
    rintro ⟨z,hz,hs,hp⟩
    exact ⟨z,hz.trans_le g.nodes,by rw [g.sptr v hlt,hs],by rw [g.path z hz,g.path v hlt,hp]⟩
  · exact .inl (hnew v hge hin)

theorem link_frame (t : SfxTree) (lastpar : Option ℕ) (cur : ℕ) :
    (t.link lastpar cur).str = t.str ∧ (t.link lastpar cur).edges = t.edges ∧ (t.link lastpar cur).nodes = t.nodes := by
  cases lastpar with
  | none => exact ⟨rfl,rfl,rfl⟩
  | some p =>
    rw [SfxTree.link]
    split
    · exact ⟨rfl,rfl,rfl⟩
    · exact ⟨rfl,rfl,rfl⟩

theorem Holds.link (h : Holds T L t path) (lastpar : Option ℕ) (cur : ℕ) : Holds T L (t.link lastpar cur) path :=
  h.congr (link_frame t lastpar cur).1 (link_frame t lastpar cur).2.1 (link_frame t lastpar cur).2.2

theorem Links.link (hl : Links t path fun v => lastpar = some v ∨ P v) (hcur : cur < t.nodes)
    (hp : ∀ p, lastpar = some p → p ≠ 0 → path cur = (path p).tail) : Links (t.link lastpar cur) path P := by
  intro v hv hne hin
  rw [Inner,(link_frame t lastpar cur).2.1] at hin
  rw [(link_frame t lastpar cur).2.2] at hv
  rw [Linked,(link_frame t lastpar cur).2.2]
  by_cases hlast : lastpar = some v
  · refine .inr ⟨cur,hcur,?_,hp v hlast hne⟩
    rw [hlast,SfxTree.link,if_neg hne]
    exact update_self ..
  · refine (hl v hv hne hin).imp (fun h => h.resolve_left hlast) ?_
    rintro ⟨z,hz,hs,hpz⟩
    refine ⟨z,hz,?_,hpz⟩
    cases lastpar with
    | none => exact hs
    | some p =>
      rw [SfxTree.link]
      split
      · exact hs
      · exact (update_of_ne (fun heq => hlast (by rw [heq])) _ _).trans hs

/-! ## One suffix more -/

/-- The node that waits for its link: the end of the suffix before, which has a letter below it that does not come next. -/
def Waits (T : List UInt8) (t : SfxTree) (path : ℕ → List UInt8) (L i p : ℕ) : Prop :=
  p < t.nodes ∧ (∃ k, L = k + 1 ∧ path p <+: T.drop k ∧ k + (path p).length = i) ∧
    (p ≠ 0 → ∃ c e, T[i]? ≠ some c ∧ t.edges (p,c) = some e)

theorem Waits.tail (hp : Waits T t path L i p) (hne : path p ≠ []) (hw : w <+: T.drop L) (hlen : L + w.length = i) :
    w = (path p).tail := by
  obtain ⟨-,⟨k,rfl,hword,hi⟩,-⟩ := hp
  refine same_word hw (prefix_tail hword) ?_
  have hpos := List.length_pos_of_ne_nil hne
  rw [List.length_tail]
  lia

/-- The place of the suffix behind one that has the letter now, and the links on the way to it. -/
theorem nextSuffix_spec (h : Holds T (L + 1) t path) (hl : Links t path fun v => lastpar = some v ∨ P v) (hP : ∀ v, P v → v = cur)
    (hcur : cur < t.nodes) (hp : ∀ p, lastpar = some p → p ≠ 0 → path cur = (path p).tail)
    (hnode : s.node < t.nodes) (hin : s.node = 0 ∨ (Inner t s.node ∧ ¬P s.node)) (hword : path s.node <+: T.drop L)
    (hstart : L + (path s.node).length = s.start) (hstop : s.stop = i) (hle : s.start ≤ i)
    (hsp : ∀ w, w <+: T.drop (L + 1) → L + 1 + w.length ≤ i → Spelled (· < t.nodes) path w) (hi : i ≤ T.length) (hf : i < fuel) :
    ∃ t' s', nextSuffix fuel t s lastpar cur = some (t',s',some cur) ∧ Holds T (L + 1) t' path ∧
      Links t' path (fun v => some cur = some v) ∧ Located T t' path (L + 1) i s' ∧ Short T t' s' ∧ t'.edges = t.edges ∧
      t'.nodes = t.nodes := by
  obtain ⟨-,hed,hn⟩ := link_frame t lastpar cur
  have hlk := hl.link hcur hp
  have h' := h.link lastpar cur
  have hs' : ∃ s', advance (t.link lastpar cur) s = some s' ∧ Located T (t.link lastpar cur) path (L + 1) i s' := by
    rw [advance]
    by_cases h0 : s.node = 0
    · rw [if_pos h0]
      have hnil : path s.node = [] := by rw [h0,h.trie.root_path]
      rw [hnil] at hstart
      refine ⟨_,rfl,by rwa [hn],?_,?_,hstop,.inr ?_,by rwa [hn]⟩
      · dsimp only
        rw [hnil]
        exact List.nil_prefix
      · dsimp only
        rw [hnil,← hstart]
        exact Nat.add_right_comm L 1 0
      · dsimp only
        rw [← hstart]
        rfl
    · rw [if_neg h0]
      obtain ⟨hinner,hnP⟩ := hin.resolve_left h0
      have hne := List.length_pos_of_ne_nil (h.trie.ne_nil hnode h0)
      obtain ⟨z,hz,hs,hpz⟩ := (hlk s.node (by rwa [hn]) h0 (by rwa [Inner,hed])).resolve_left hnP
      rw [hs]
      refine ⟨_,rfl,hz,?_,?_,hstop,.inl hle,by rwa [hn]⟩
      · dsimp only
        rw [hpz]
        exact prefix_tail hword
      · dsimp only
        rw [hpz,List.length_tail]
        lia
  obtain ⟨s',hnext,hloc⟩ := hs'
  obtain ⟨s'',hcan,hloc',hshort⟩ := canonical_spec h' hloc hi hf
  refine ⟨_,s'',?_,h',fun v hv hne hin => (hlk v hv hne hin).imp_left fun hv => by rw [hP v hv],hloc',hshort,hed,hn⟩
  rw [nextSuffix,hnext,Option.bind_eq_bind,Option.bind_some,hcan]
  rfl

/-- The state at the start of a turn, with the suffix `L` to come. -/
structure Turned (T : List UInt8) (i L : ℕ) (st : SfxTree × Suffix × Option ℕ) (path : ℕ → List UInt8) : Prop where
  holds : Holds T L st.1 path
  links : Links st.1 path fun v => st.2.2 = some v
  place : Located T st.1 path L i st.2.1
  short : Short T st.1 st.2.1
  waits : ∀ p, st.2.2 = some p → Waits T st.1 path L i p

/-- The state in which the loop leaves: the suffix `L` has the letter already. -/
structure Left (T : List UInt8) (i L : ℕ) (st : SfxTree × Suffix × Option ℕ) (path : ℕ → List UInt8) : Prop where
  holds : Holds T L st.1 path
  links : Links st.1 path fun v => st.2.2 = some v
  place : Located T st.1 path L i st.2.1
  tail : ∀ p, st.2.2 = some p → p ≠ 0 → path st.2.1.node = (path p).tail
  spelled : ∀ w, w <+: T.drop L → L + w.length ≤ i + 1 → Spelled (· < st.1.nodes) path w

theorem spelled_next (h : Holds T L t path) (hs : Located T t path L i s) (h' : Holds T (L + 1) t' path')
    (hw : w <+: T.drop (L + 1)) (hlen : L + 1 + w.length ≤ i) (hi : i ≤ T.length) : Spelled (· < t'.nodes) path' w := by
  have hL : L < T.length := by lia
  have hdrop : T.drop L = T[L] :: T.drop (L + 1) := List.drop_eq_getElem_cons hL
  have hcons : T[L] :: w <+: T.drop L := by
    rw [hdrop,List.cons_prefix_cons]
    exact ⟨rfl,hw⟩
  have hsp := hs.spelled (T[L] :: w) hcons (by rw [List.length_cons]; lia)
  obtain ⟨k,hk,hp⟩ := h.sound hsp (List.cons_ne_nil _ _)
  exact h'.complete (Nat.succ_lt_succ hk) (prefix_tail hp)

theorem Located.inner (h : Holds T L t path) (hs : Located T t path L i s) (hle : s.start ≤ i) (hi : i < T.length) :
    s.node = 0 ∨ Inner t s.node := by
  by_cases h0 : s.node = 0
  · exact .inl h0
  refine .inr ((h.ends s.node hs.node h0).resolve_right ?_)
  rintro ⟨j,hj,hp⟩
  have hstart := hs.start
  rw [hp,List.length_drop] at hstart
  lia

theorem OnEdge.reads (h : Holds T L t path) (hs : Located T t path L i s) (ho : OnEdge T t path L i s c e)
    (hlt : i - s.start < e.stop - e.start) (hle : s.start ≤ i) (hw : w <+: T.drop L) (hlen : L + w.length = i) :
    w <+: path e.node ∧ ∃ y, w ++ [y] <+: path e.node ∧ T[e.start + (i - s.start)]? = some y := by
  have hstart := hs.start
  have hlonger := ho.longer
  have hwe : w <+: path e.node := by
    refine (ho.way w hw hlen).resolve_right fun hway => ?_
    have := hway.length_le
    lia
  obtain ⟨k,-,hpk,hk,-⟩ := h.edge ho.edge
  obtain ⟨r,hr⟩ := hwe
  cases r with
  | nil =>
    have := congrArg List.length hr
    rw [List.append_nil] at this
    lia
  | cons y r =>
    have hwy : w ++ [y] <+: path e.node := ⟨r,by rw [← hr,List.append_assoc]; rfl⟩
    refine ⟨⟨_,hr⟩,y,hwy,?_⟩
    rw [show e.start + (i - s.start) = k + w.length by lia]
    exact next_letter (hwy.trans hpk)

theorem OnEdge.single {y : UInt8} (h : Holds T L t path) (ho : OnEdge T t path L i s c e) (hs : Located T t path L i s) (hlt : s.start < i)
    (hlen : L + w.length = i) (hw : w <+: T.drop L) (hy : w ++ [y] <+: path e.node)
    (hsp : Spelled (· < t.nodes) path (w ++ [d])) : d = y := by
  have hstart := hs.start
  have hcw : path s.node ++ [c] <+: w := by
    refine List.prefix_of_prefix_length_le (with_letter hs.word (by rw [hstart,ho.letter])) hw ?_
    rw [List.length_append,List.length_singleton]
    lia
  obtain ⟨x,rfl⟩ := hcw
  have hassoc : path s.node ++ [c] ++ x ++ [d] = path s.node ++ c :: (x ++ [d]) := by
    rw [List.append_assoc,List.append_assoc]
    rfl
  rw [hassoc] at hsp
  obtain ⟨z,hz,hway⟩ := h.trie.locus hs.node hsp
  rw [child_of_edge ho.edge] at hz
  cases hz
  rw [← hassoc] at hway
  have hd : path s.node ++ [c] ++ x ++ [d] <+: path e.node := by
    refine hway.elim id fun hway => ?_
    have hlen := hy.length_le
    rw [hway.eq_of_length_le (by rw [List.length_append,List.length_singleton] at hlen ⊢; exact hlen)]
  exact letter_unique hd hy

theorem Waits.spelled (h : Holds T L t path) (hp : Waits T t path L i p) (hne : p ≠ 0) (hw : w <+: T.drop L) (hlen : L + w.length = i) :
    ∃ c, T[i]? ≠ some c ∧ Spelled (· < t.nodes) path (w ++ [c]) := by
  have hnil := h.trie.ne_nil hp.1 hne
  have htail := hp.tail hnil hw hlen
  obtain ⟨-,⟨l,rfl,hword,hi⟩,hc⟩ := hp
  obtain ⟨c,e,hne',he⟩ := hc hne
  obtain ⟨k,hk,hpk,hstart,-⟩ := h.edge he
  have hpc := (h.trie.below (child_of_edge he)).2.2.trans hpk
  refine ⟨c,hne',?_⟩
  have hkl : k ≠ l := by
    rintro rfl
    have hc := next_letter hpc
    rw [hi] at hc
    exact hne' hc
  refine h.complete (k := k + 1) (by lia) ?_
  have ht := prefix_tail hpc
  rwa [List.tail_append_of_ne_nil hnil,← htail] at ht

section turn
variable {st : SfxTree × Suffix × Option ℕ}

theorem explicit_spec (ht : Turned T i L (t,s,lastpar) path) (hL : L ≤ i + 1) (hi : i < T.length) (hf : i < fuel) (hex : s.Explicit) :
    (∃ st' path', suffixBody fuel i (t,s,lastpar) = some (.again st') ∧ L ≤ i ∧ Turned T i (L + 1) st' path') ∨
      suffixBody fuel i (t,s,lastpar) = some (.leave (t,s,lastpar)) ∧ Left T i L (t,s,lastpar) path := by
  obtain ⟨h,hl,hs,hshort,hwaits⟩ := ht
  dsimp only at h hl hs hshort hwaits
  have hstart := hs.start
  have hstop := hs.stop
  have hex' : i ≤ s.start := hstop ▸ hex
  have hx : T[i]? = some T[i] := List.getElem?_eq_getElem hi
  have hnil : s.start = L → path s.node = [] := fun heq => List.length_eq_zero_iff.mp (by lia)
  -- a node that waits has a letter, so that the suffix is not behind the text
  have htail : ∀ p, lastpar = some p → p ≠ 0 → path s.node = (path p).tail := by
    intro p hp hne
    have hlen := List.length_pos_of_ne_nil (h.trie.ne_nil (hwaits p hp).1 hne)
    obtain ⟨-,⟨k,hk,-,hki⟩,-⟩ := hwaits p hp
    have := hs.within
    exact (hwaits p hp).tail (h.trie.ne_nil (hwaits p hp).1 hne) hs.word (by lia)
  rw [suffixBody,h.str,hx,Option.bind_eq_bind,Option.bind_some,if_pos hex]
  cases he : t.edges (s.node,T[i]) with
  | some e =>
    refine .inr ⟨rfl,h,hl,hs,htail,fun w hw hlen => ?_⟩
    by_cases hwi : L + w.length ≤ i
    · exact hs.spelled w hw hwi
    have := hs.within
    by_cases hsi : s.start = i
    · have hwx : w = path s.node ++ [T[i]] := by
        refine same_word hw (with_letter hs.word (by rw [hstart,hsi,hx])) ?_
        rw [List.length_append,List.length_singleton]
        lia
      rw [hwx]
      exact ⟨e.node,(h.trie.below (child_of_edge he)).2⟩
    · rw [List.length_eq_zero_iff.mp (show w.length = 0 by lia)]
      exact h.spelled_nil
  | none =>
    -- at the root the letter that was read last has an edge
    have hsi : s.start = i := by
      by_contra hne
      have := hs.within
      have hsL : s.start = L := by lia
      have h0 : s.node = 0 := by
        by_contra h0
        exact h.trie.ne_nil hs.node h0 (hnil hsL)
      have hsp : Spelled (· < t.nodes) path (path 0 ++ T[i] :: T.drop (i + 1)) := by
        rw [h.trie.root_path,List.nil_append,← List.drop_eq_getElem_cons hi]
        exact h.complete (show i < L by lia) (List.prefix_refl _)
      obtain ⟨z,hz,-⟩ := h.trie.locus h.trie.root_live hsp
      rw [SfxTree.child,← h0,he] at hz
      cases hz
    have hin := hs.inner h hsi.le hi
    obtain ⟨t',hnew,h',hg,hn,hxe,hout⟩ := newleaf_spec h hs.node hx he hs.word (hstart.trans hsi) hin
    generalize update path t.nodes (T.drop L) = path' at h' hg
    have hcur : path' s.node = path s.node := hg.path _ hs.node
    have hnode : s.node < t'.nodes := hs.node.trans_le hg.nodes
    have hlinks : Links t' path' fun v => lastpar = some v ∨ False :=
      (hl.mono fun v hv => .inl hv).grew hg fun v hv hv' => absurd hv' (hout v hv)
    have hinner : s.node = 0 ∨ (Inner t' s.node ∧ ¬False) := .inr ⟨⟨_,hxe⟩,not_false⟩
    obtain ⟨t'',s',hrun,h'',hl'',hs'',hshort'',hed,hnn⟩ := nextSuffix_spec h' hlinks (fun v hv => hv.elim) hnode
      (fun p hp hne => by rw [hcur,hg.path p (hwaits p hp).1,htail p hp hne]) hnode hinner (by rw [hcur]; exact hs.word)
      (by rw [hcur,hstart]) hstop hsi.le (fun w hw hlen => spelled_next h hs h' hw hlen hi.le) hi.le hf
    refine .inl ⟨(t'',s',some s.node),path',?_,by lia,h'',hl'',hs'',hshort'',?_⟩
    · rw [hnew]
      change (nextSuffix fuel t' s lastpar s.node).bind _ = _
      rw [hrun]
      rfl
    · rintro _ ⟨⟩
      refine ⟨hnn ▸ hnode,⟨L,rfl,by rw [hcur]; exact hs.word,by rw [hcur,hstart,hsi]⟩,fun hne => ?_⟩
      obtain ⟨c,e,hce⟩ := hin.resolve_left hne
      obtain ⟨e',he'⟩ := hg.keep hce
      refine ⟨c,e',?_,by rw [hed,he']⟩
      rintro hc
      rw [hx] at hc
      cases hc
      rw [he] at hce
      cases hce

theorem implicit_spec (ht : Turned T i L (t,s,lastpar) path) (hi : i < T.length) (hf : i < fuel) (hex : ¬s.Explicit) :
    (∃ st' path', suffixBody fuel i (t,s,lastpar) = some (.again st') ∧ L ≤ i ∧ Turned T i (L + 1) st' path') ∨
      suffixBody fuel i (t,s,lastpar) = some (.leave (t,s,lastpar)) ∧ Left T i L (t,s,lastpar) path := by
  obtain ⟨h,hl,hs,hshort,hwaits⟩ := ht
  dsimp only at h hl hs hshort hwaits
  have hstart := hs.start
  have hstop := hs.stop
  have hlt : s.start < i := hstop ▸ Nat.lt_of_not_le hex
  have hx : T[i]? = some T[i] := List.getElem?_eq_getElem hi
  obtain ⟨w,hw,hlen⟩ := exists_word (T := T) (L := L) (by lia) hi.le
  have hwait : ∀ p, lastpar = some p → p ≠ 0 → w = (path p).tail := fun p hp hne =>
    (hwaits p hp).tail (h.trie.ne_nil (hwaits p hp).1 hne) hw hlen
  obtain ⟨c,e,ho⟩ := hs.onEdge h hlt hi.le
  have hspan := hshort (hstop.symm ▸ hlt) c e ho.letter ho.edge
  rw [hstop] at hspan
  obtain ⟨hwe,y,hy,hread⟩ := ho.reads h hs hspan hlt.le hw hlen
  have hbody : suffixBody fuel i (t,s,lastpar) = if y = T[i] then some (.leave (t,s,lastpar)) else
      (split t (s.node,c) e (i - s.start) i).bind fun r => (nextSuffix fuel r.1 s lastpar r.2).bind fun st => some (.again st) := by
    rw [suffixBody,h.str,hx,Option.bind_eq_bind,Option.bind_some,if_neg hex,ho.letter,Option.bind_eq_bind,Option.bind_some,
      ho.edge,Option.bind_eq_bind,Option.bind_some,hstop,if_neg (Nat.not_le.mpr hspan),hread]
    rfl
  rw [hbody]
  by_cases hyx : y = T[i]
  · rw [if_pos hyx]
    refine .inr ⟨rfl,h,hl,hs,fun p hp hne => ?_,fun w' hw' hlen' => ?_⟩
    · -- the other letter below the waiting node would be below this place, too
      obtain ⟨d,hd,hsp⟩ := (hwaits p hp).spelled h hne hw hlen
      exact absurd (by rw [hx,← hyx,ho.single h hs hlt hlen hw hy hsp]) hd
    · by_cases hwi : L + w'.length ≤ i
      · exact hs.spelled w' hw' hwi
      have hwx : w' = w ++ [T[i]] := by
        refine same_word hw' (with_letter hw (by rw [hlen,hx])) ?_
        rw [List.length_append,List.length_singleton]
        lia
      rw [hwx,← hyx]
      exact ⟨e.node,(h.trie.below (child_of_edge ho.edge)).2.1,hy⟩
  · rw [if_neg hyx]
    have hlonger := ho.longer
    have hsw : path s.node <+: w := List.prefix_of_prefix_length_le hs.word hw (by lia)
    obtain ⟨t₁,d,e₁,hbreak,h₁,hg₁,hn₁,hd,he₁,honly⟩ := breakEdge_spec h ho.edge hsw hwe (by lia) (by lia)
    rw [show w.length - (path s.node).length = i - s.start by lia] at hbreak
    obtain rfl := letter_unique hd hy
    have hm : update path t.nodes w t.nodes = w := update_self ..
    generalize update path t.nodes w = path₁ at h₁ hg₁ hm
    have hfree : t₁.edges (t.nodes,T[i]) = none := by
      cases he : t₁.edges (t.nodes,T[i]) with
      | none => rfl
      | some e' => exact absurd (honly _ _ he).symm hyx
    have hlt₁ : t.nodes < t₁.nodes := by rw [hn₁]; exact Nat.lt_succ_self _
    obtain ⟨t',hnew,h',hg₂,hn₂,hxe,hout⟩ := newleaf_spec h₁ hlt₁ hx hfree (by rwa [hm]) (by rw [hm,hlen]) (.inr ⟨d,e₁,he₁⟩)
    have hg := hg₁.trans hg₂
    have hcur : update path₁ t₁.nodes (T.drop L) t.nodes = w := by rw [hg₂.path _ hlt₁,hm]
    generalize update path₁ t₁.nodes (T.drop L) = path' at h' hg₂ hg hcur
    have hlinks : Links t' path' fun v => lastpar = some v ∨ v = t.nodes := by
      refine (hl.mono fun v hv => .inl hv).grew hg fun v hv hv' => .inr ?_
      by_contra hne
      exact hout v (by lia) hv'
    have hnode : s.node < t'.nodes := hs.node.trans_le hg.nodes
    have hpath : path' s.node = path s.node := hg.path _ hs.node
    have hin : s.node = 0 ∨ (Inner t' s.node ∧ ¬s.node = t.nodes) := by
      obtain ⟨e',he'⟩ := hg.keep ho.edge
      exact .inr ⟨⟨c,e',he'⟩,hs.node.ne⟩
    have hcurlt : t.nodes < t'.nodes := hlt₁.trans_le hg₂.nodes
    obtain ⟨t'',s',hrun,h'',hl'',hs'',hshort'',hed,hnn⟩ := nextSuffix_spec h' hlinks (fun v hv => hv) hcurlt
      (fun p hp hne => by rw [hcur,hg.path p (hwaits p hp).1,hwait p hp hne]) hnode hin (by rw [hpath]; exact hs.word)
      (by rw [hpath,hstart]) hstop hlt.le (fun w hw hlen => spelled_next h hs h' hw hlen hi.le) hi.le hf
    refine .inl ⟨(t'',s',some t.nodes),path',?_,by lia,h'',hl'',hs'',hshort'',?_⟩
    · rw [split,hbreak,Option.bind_eq_bind,Option.bind_some,hnew]
      change (nextSuffix fuel t' s lastpar t.nodes).bind _ = _
      rw [hrun]
      rfl
    · rintro _ ⟨⟩
      refine ⟨hnn ▸ hcurlt,⟨L,rfl,by rw [hcur]; exact hw,by rw [hcur,hlen]⟩,fun _ => ?_⟩
      obtain ⟨e',he'⟩ := hg₂.keep he₁
      exact ⟨d,e',fun hc => hyx (Option.some.inj (hx.symm.trans hc)).symm,by rw [hed,he']⟩

end turn

/-! ## The whole text -/

/-- The state between two letters. -/
structure Between (T : List UInt8) (i L : ℕ) (t : SfxTree) (s : Suffix) (path : ℕ → List UInt8) : Prop where
  holds : Holds T L t path
  links : Links t path fun _ => False
  place : Located T t path L i s
  short : Short T t s

theorem letter_spec (h : Between T i L t s path) (hL : L ≤ i) (hi : i < T.length) (hf : T.length < fuel) :
    ∃ t' s' L' path', letter fuel i t s = some (t',s') ∧ L' ≤ i + 1 ∧ Between T (i + 1) L' t' s' path' := by
  let I : ℕ → SfxTree × Suffix × Option ℕ → Prop := fun m st => ∃ L path, L ≤ i + 1 ∧ m = i + 1 - L ∧ Turned T i L st path
  let Q : SfxTree × Suffix × Option ℕ → Prop := fun st => ∃ L path, L ≤ i + 1 ∧ Left T i L st path
  have hloop : ∃ st, loop (suffixBody fuel i) fuel (t,s,none) = some st ∧ Q st := by
    refine loop_total (I := I) (n := i + 1 - L) ?_ ⟨L,path,by lia,rfl,h.holds,?_,h.place,h.short,fun _ hp => by cases hp⟩ (by lia)
    · rintro m ⟨t,s,lastpar⟩ ⟨L,path,hL,rfl,ht⟩
      have hturn : (∃ st' path', suffixBody fuel i (t,s,lastpar) = some (.again st') ∧ L ≤ i ∧ Turned T i (L + 1) st' path') ∨
          suffixBody fuel i (t,s,lastpar) = some (.leave (t,s,lastpar)) ∧ Left T i L (t,s,lastpar) path := by
        by_cases hex : s.Explicit
        · exact explicit_spec ht hL hi (by lia) hex
        · exact implicit_spec ht hi (by lia) hex
      rcases hturn with ⟨st',path',hrun,hle,ht'⟩ | ⟨hrun,hleft⟩
      · exact .inl ⟨st',i + 1 - (L + 1),hrun,by lia,L + 1,path',by lia,rfl,ht'⟩
      · exact .inr ⟨_,hrun,L,path,hL,hleft⟩
    · exact h.links.mono fun _ hv => hv.elim
  obtain ⟨⟨t',s',lastpar⟩,hrun,L',path',hL',hleft⟩ := hloop
  obtain ⟨h',hl',hs',htail,hsp⟩ := hleft
  dsimp only at h' hl' hs' htail hsp
  obtain ⟨-,hed,hn⟩ := link_frame t' lastpar s'.node
  have hlk : Links (t'.link lastpar s'.node) path' fun _ => False := (hl'.mono fun v hv => .inl hv).link hs'.node htail
  have hloc : Located T (t'.link lastpar s'.node) path' L' (i + 1) {s' with stop := s'.stop + 1} := by
    refine ⟨by rw [hn]; exact hs'.node,hs'.word,hs'.start,congrArg (· + 1) hs'.stop,?_,by rwa [hn]⟩
    exact hs'.within.imp_left Nat.le_succ_of_le
  obtain ⟨s'',hcan,hloc',hshort⟩ := canonical_spec (h'.link lastpar s'.node) hloc hi (Nat.lt_of_le_of_lt hi hf)
  refine ⟨_,s'',L',path',?_,hL',h'.link lastpar s'.node,hlk,hloc',hshort⟩
  rw [letter,hrun]
  change (canonical (t'.link lastpar s'.node) fuel _).bind _ = _
  rw [hcan]
  rfl

theorem letters_spec (h : Between T i L t s path) (hL : L ≤ i) (hn : i + n = T.length) (hf : T.length < fuel) :
    ∃ t' s' L' path', letters fuel n i t s = some (t',s') ∧ L' ≤ T.length ∧ Between T T.length L' t' s' path' := by
  induction n generalizing i t s L path with
  | zero =>
    obtain rfl : i = T.length := hn
    exact ⟨t,s,L,path,rfl,hL,h⟩
  | succ n ih =>
    obtain ⟨t',s',L',path',hrun,hL',h'⟩ := letter_spec h hL (by lia) hf
    obtain ⟨t'',s'',L'',path'',hrest,hend⟩ := ih h' hL' (by lia)
    refine ⟨t'',s'',L'',path'',?_,hend⟩
    rw [letters,hrun]
    exact hrest

theorem between_start (T : List UInt8) : Between T 0 0 ⟨T,fun _ => none,fun _ => none,1⟩ ⟨0,0,0⟩ fun _ => [] := by
  refine ⟨⟨rfl,⟨Nat.zero_lt_one,rfl,?_,?_⟩,?_,?_,?_⟩,?_,⟨Nat.zero_lt_one,List.nil_prefix,rfl,rfl,.inl le_rfl,?_⟩,?_⟩
  · intro u c v he
    cases he
  · intro v hv hne
    exact absurd (Nat.lt_one_iff.mp hv) hne
  · intro u c e he
    cases he
  · intro j hj
    exact absurd hj (Nat.not_lt_zero j)
  · intro v hv hne
    exact absurd (Nat.lt_one_iff.mp hv) hne
  · intro v hv hne
    exact absurd (Nat.lt_one_iff.mp hv) hne
  · intro w hw hlen
    rw [List.length_eq_zero_iff.mp (show w.length = 0 by lia)]
    exact ⟨0,Nat.zero_lt_one,List.nil_prefix⟩
  · intro hlt
    exact absurd hlt (Nat.not_lt_zero 0)

/-- The tree of a whole text: what it spells, occurs in the text, and all that occurs is spelled. -/
structure Suffixes (T : List UInt8) (t : SfxTree) (path : ℕ → List UInt8) : Prop where
  holds : ∃ L, Holds T L t path
  spelled : ∀ j, Spelled (· < t.nodes) path (T.drop j)

theorem Between.suffixes (h : Between T T.length L t s path) : Suffixes T t path := by
  refine ⟨⟨L,h.holds⟩,fun j => ?_⟩
  induction j using Nat.strong_induction_on with
  | _ j ih =>
    by_cases hjL : j < L
    · exact h.holds.complete hjL (List.prefix_refl _)
    by_cases hj : T.length ≤ j
    · rw [List.drop_eq_nil_of_le hj]
      exact h.holds.spelled_nil
    have hsp := h.place.spelled (T.drop L) (List.prefix_refl _) (by rw [List.length_drop]; lia)
    have hne : T.drop L ≠ [] := fun h0 => by
      have := congrArg List.length h0
      rw [List.length_drop,List.length_nil] at this
      lia
    obtain ⟨k,hk,hp⟩ := h.holds.sound hsp hne
    have hpj := hp.drop (j - L)
    rw [List.drop_drop,List.drop_drop,show L + (j - L) = j by lia] at hpj
    exact (ih (k + (j - L)) (by lia)).front hpj

theorem sfxBuild_spec (hf : T.length < fuel) :
    ∃ t path, sfxBuild ⟨T,fun _ => none,fun _ => none,1⟩ fuel = some t ∧ Suffixes T t path := by
  obtain ⟨t,s,L,path,hrun,-,h⟩ := letters_spec (between_start T) le_rfl (Nat.zero_add _) hf
  refine ⟨t,path,?_,h.suffixes⟩
  rw [sfxBuild,hrun]
  rfl

/-! ## Searching -/

variable {pat : List UInt8}

theorem Suffixes.spelled_iff (h : Suffixes T t path) : Spelled (· < t.nodes) path pat ↔ ∃ j, OccursAt pat T j := by
  constructor
  · intro hs
    by_cases hnil : pat = []
    · exact ⟨0,by rw [hnil]; exact List.nil_prefix⟩
    obtain ⟨L,hL⟩ := h.holds
    obtain ⟨k,-,hk⟩ := hL.sound hs hnil
    exact ⟨k,hk⟩
  · rintro ⟨j,hj⟩
    exact (h.spelled j).front hj

theorem take_of_front (h : w <+: w') (hn : n ≤ w.length) : w'.take n = w.take n := by
  obtain ⟨r,rfl⟩ := h
  exact List.take_append_of_le_length hn

/-- The letters matched so far: they lead to the node, and where they end the last edge ends or is left. -/
structure Walked (T : List UInt8) (t : SfxTree) (path : ℕ → List UInt8) (pat : List UInt8) (st : ℕ × ℕ × Option (SfxEdge × ℕ)) : Prop where
  node : st.1 < t.nodes
  le : st.2.1 ≤ pat.length
  word : st.2.1 < pat.length → path st.1 = pat.take st.2.1
  first : st.2.2 = none → st.2.1 = 0
  found : ∀ e len, st.2.2 = some (e,len) → ∃ k, k + st.2.1 = e.start + len ∧ pat.take st.2.1 <+: T.drop k

/-- The place that the search answers with. -/
def Answers (pat T : List UInt8) : Option ℕ → Prop
  | some loc => OccursAt pat T loc
  | none => ∀ j, ¬OccursAt pat T j

theorem matchBody_spec (h : Suffixes T t path) {st : ℕ × ℕ × Option (SfxEdge × ℕ)} (hw : Walked T t path pat st) :
    (∃ st', matchBody t pat st = some (.again st') ∧ st.2.1 < st'.2.1 ∧ Walked T t path pat st') ∨
      ∃ r, matchBody t pat st = some (.leave r) ∧ Answers pat T r := by
  obtain ⟨cur,cp,last⟩ := st
  obtain ⟨hnode,hle,hword,hfirst,hfound⟩ := hw
  dsimp only at hnode hle hword hfirst hfound
  obtain ⟨L,hL⟩ := h.holds
  dsimp only [matchBody]
  by_cases hcp : cp < pat.length
  · have hwd := hword hcp
    have hlen : (path cur).length = cp := by rw [hwd,List.length_take,Nat.min_eq_left hle]
    have hpat : pat = path cur ++ pat[cp] :: pat.drop (cp + 1) := by
      rw [hwd,← List.drop_eq_getElem_cons hcp,List.take_append_drop]
    have hlocus : Spelled (· < t.nodes) path pat →
        ∃ z, t.child (cur,pat[cp]) = some z ∧ (pat <+: path z ∨ path z <+: pat) := by
      intro hs
      rw [hpat] at hs
      obtain ⟨z,hz,hway⟩ := hL.trie.locus hnode hs
      rw [← hpat] at hway
      exact ⟨z,hz,hway⟩
    rw [if_pos hcp,List.getElem?_eq_getElem hcp,Option.bind_eq_bind,Option.bind_some]
    cases he : t.edges (cur,pat[cp]) with
    | none =>
      refine .inr ⟨none,rfl,fun j hj => ?_⟩
      obtain ⟨z,hz,-⟩ := hlocus (h.spelled_iff.mpr ⟨j,hj⟩)
      rw [SfxTree.child,he] at hz
      cases hz
    | some e =>
      obtain ⟨k,-,hpk,hstart,hstop⟩ := hL.edge he
      have hlonger := hL.trie.longer (child_of_edge he)
      rw [hlen] at hstart hlonger
      dsimp only
      generalize hl : min (pat.length - cp) (e.stop - e.start) = len
      have hl1 : len ≤ pat.length - cp := by rw [← hl]; exact Nat.min_le_left _ _
      have hl2 : len ≤ e.stop - e.start := by rw [← hl]; exact Nat.min_le_right _ _
      rw [if_neg (show ¬len < 1 by lia),hL.str]
      -- the letters on the edge are those behind the word of its upper node at the occurrence `k`
      have hedge : (T.drop e.start).take len = ((T.drop k).take (cp + len)).drop cp := by
        rw [List.drop_take,List.drop_drop,hstart,Nat.add_sub_cancel_left]
      have hletters : (pat.drop cp).take len = (pat.take (cp + len)).drop cp := by rw [List.drop_take,Nat.add_sub_cancel_left]
      by_cases hcmp : (T.drop e.start).take len = (pat.drop cp).take len
      · rw [if_neg (not_not.mpr hcmp)]
        have htake : pat.take (cp + len) = (T.drop k).take (cp + len) := by
          have hupper : pat.take cp = (T.drop k).take cp := by
            rw [take_of_front ((List.prefix_append _ _).trans ((hL.trie.below (child_of_edge he)).2.2.trans hpk)) hlen.ge,
              List.take_of_length_le hlen.le,hwd]
          rw [List.take_add,List.take_add,hupper,← hcmp,hedge,List.drop_take,Nat.add_sub_cancel_left]
        refine .inl ⟨_,rfl,by dsimp only; lia,(hL.trie.below (child_of_edge he)).2.1,by dsimp only; lia,fun hlt => ?_,
          (by rintro ⟨⟩),?_⟩
        · dsimp only at hlt ⊢
          have hfull : cp + len = (path e.node).length := by lia
          rw [htake,hfull,take_of_front hpk le_rfl,List.take_length]
        · rintro _ _ ⟨⟩
          refine ⟨k,by dsimp only; lia,?_⟩
          dsimp only
          rw [htake]
          exact List.take_prefix _ _
      · rw [if_pos hcmp]
        refine .inr ⟨none,rfl,fun j hj => hcmp ?_⟩
        obtain ⟨z,hz,hway⟩ := hlocus (h.spelled_iff.mpr ⟨j,hj⟩)
        rw [child_of_edge he] at hz
        cases hz
        have hsame : (T.drop k).take (cp + len) = pat.take (cp + len) := by
          rcases hway with hway | hway
          · exact take_of_front (hway.trans hpk) (by lia)
          · rw [take_of_front hpk (by lia),take_of_front hway (by lia)]
        rw [hedge,hletters,hsame]
  · have hcp : cp = pat.length := by lia
    subst hcp
    refine .inr ?_
    rw [if_neg (lt_irrefl _)]
    cases last with
    | none =>
      refine ⟨_,rfl,?_⟩
      rw [List.length_eq_zero_iff.mp (hfirst rfl)]
      exact List.nil_prefix
    | some r =>
      obtain ⟨e,len⟩ := r
      obtain ⟨k,hk,hp⟩ := hfound e len rfl
      rw [List.take_length] at hp
      refine ⟨some k,?_,hp⟩
      dsimp only
      rw [if_neg (by lia),show e.start + len - pat.length = k by lia]

theorem sfxMatch_spec (h : Suffixes T t path) (hpat : pat.length ≤ maxLen) (hf : pat.length < fuel) :
    ∃ r, sfxMatch t pat fuel = some r ∧ Answers pat T r := by
  obtain ⟨L,hL⟩ := h.holds
  rw [sfxMatch,if_neg (Nat.not_lt.mpr hpat)]
  let I : ℕ → ℕ × ℕ × Option (SfxEdge × ℕ) → Prop := fun m st => m = pat.length - st.2.1 ∧ Walked T t path pat st
  refine loop_total (I := I) (n := pat.length) ?_ ⟨rfl,hL.trie.root_live,Nat.zero_le _,fun _ => hL.trie.root_path,fun _ => rfl,nofun⟩ hf
  rintro m st ⟨rfl,hw⟩
  rcases matchBody_spec h hw with ⟨st',hrun,hlt,hw'⟩ | hleave
  · have := hw'.le
    exact .inl ⟨st',_,hrun,by lia,rfl,hw'⟩
  · exact .inr hleave

end Catlib.Matching.Sfx
