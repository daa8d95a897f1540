import Mathlib.Data.List.Infix
import Mathlib.Logic.Relation

/-! # Tries with words on their edges

Every node stands for a word, and the children of a node differ in the letter that comes next behind
its word. What the trie spells are the prefixes of the words of its nodes. A new leaf and a node in
the middle of an edge keep the shape.
-/
namespace Catlib
open Function Relation

variable {ν α : Type*} {child : ν × α → Option ν} {root a m u v z : ν} {live live' : ν → Prop} {path : ν → List α} {c d : α}
  {w x : List α}

/-- `path` is the word of a node, `live` says which nodes there are. -/
structure WordTrie (child : ν × α → Option ν) (root : ν) (live : ν → Prop) (path : ν → List α) : Prop where
  root_live : live root
  root_path : path root = []
  below : ∀ {u c v}, child (u,c) = some v → live u ∧ live v ∧ path u ++ [c] <+: path v
  parent : ∀ {v}, live v → v ≠ root → ∃ u c, child (u,c) = some v

/-- The prefixes of the words of the nodes. -/
def Spelled (live : ν → Prop) (path : ν → List α) (w : List α) : Prop := ∃ v, live v ∧ w <+: path v

theorem Spelled.front (h : Spelled live path w) (hx : x <+: w) : Spelled live path x := by
  obtain ⟨v,hv,hw⟩ := h
  exact ⟨v,hv,hx.trans hw⟩

theorem letter_unique {y : List α} (h : w ++ [c] <+: y) (h' : w ++ [d] <+: y) : c = d := by
  obtain ⟨r,hr⟩ := h
  obtain ⟨r',hr'⟩ := h'
  rw [← hr',List.append_assoc,List.append_assoc] at hr
  exact (List.cons.inj (List.append_cancel_left hr)).1

namespace WordTrie

def Edge (child : ν × α → Option ν) (u v : ν) : Prop := ∃ c, child (u,c) = some v

theorem longer (h : WordTrie child root live path) (he : child (u,c) = some v) : (path u).length < (path v).length := by
  have hlen := (h.below he).2.2.length_le
  rw [List.length_append] at hlen
  exact hlen

theorem ne_nil (h : WordTrie child root live path) (hv : live v) (hne : v ≠ root) : path v ≠ [] := by
  intro h0
  obtain ⟨u,c,he⟩ := h.parent hv hne
  have hlt := h.longer he
  rw [h0] at hlt
  exact Nat.not_lt_zero _ hlt

theorem path_below (h : WordTrie child root live path) (hr : ReflTransGen (Edge child) u v) : path u <+: path v := by
  induction hr with
  | refl => exact List.prefix_refl _
  | tail _ he ih =>
    obtain ⟨c,he⟩ := he
    exact ih.trans ((List.prefix_append _ _).trans (h.below he).2.2)

theorem reached (h : WordTrie child root live path) (hv : live v) : ReflTransGen (Edge child) root v := by
  induction hn : (path v).length using Nat.strong_induction_on generalizing v with
  | _ n ih =>
    by_cases hne : v = root
    · rw [hne]
    · obtain ⟨u,c,he⟩ := h.parent hv hne
      have hlt := h.longer he
      rw [hn] at hlt
      exact (ih _ hlt (h.below he).1 rfl).tail ⟨c,he⟩

theorem passes (h : WordTrie child root live path) (hu : ReflTransGen (Edge child) a u) (hv : ReflTransGen (Edge child) a v)
    (hp : path u <+: path v) : ReflTransGen (Edge child) u v := by
  induction hu using ReflTransGen.head_induction_on with
  | refl => exact hv
  | @head a b he hb ih =>
    obtain ⟨c,he⟩ := he
    have hc := (h.below he).2.2.trans ((h.path_below hb).trans hp)
    rcases hv.cases_head with rfl | ⟨b',⟨c',he'⟩,hb'⟩
    · -- the word of `a` would be longer than itself
      have hlen := hc.length_le
      rw [List.length_append,List.length_singleton] at hlen
      exact absurd hlen (Nat.not_succ_le_self _)
    · have hc' := (h.below he').2.2.trans (h.path_below hb')
      obtain rfl := letter_unique hc hc'
      rw [he] at he'
      cases he'
      exact ih hb'

theorem locus (h : WordTrie child root live path) (hu : live u) (hs : Spelled live path (path u ++ c :: x)) :
    ∃ z, child (u,c) = some z ∧ (path u ++ c :: x <+: path z ∨ path z <+: path u ++ c :: x) := by
  obtain ⟨v,hv,hw⟩ := hs
  have hlen := hw.length_le
  rw [List.length_append,List.length_cons] at hlen
  have hup : path u <+: path v := (List.prefix_append _ _).trans hw
  rcases (h.passes (h.reached hu) (h.reached hv) hup).cases_head with rfl | ⟨z,⟨d,hz⟩,hb⟩
  · exact absurd hlen (by lia)
  · have hzv := h.path_below hb
    have hd := (h.below hz).2.2.trans hzv
    have hc : path u ++ [c] <+: path v := by
      refine List.IsPrefix.trans ?_ hw
      rw [List.prefix_append_right_inj]
      exact ⟨x,rfl⟩
    obtain rfl := letter_unique hd hc
    exact ⟨z,hz,List.prefix_or_prefix_of_prefix hw hzv⟩

/-! ## New nodes -/

section update
variable [DecidableEq ν] [DecidableEq α]

theorem graft (h : WordTrie child root live path) (hu : live u) (hfree : child (u,c) = none) (hv : ¬live v)
    (hw : path u ++ [c] <+: w) (hlive : ∀ z, live' z ↔ live z ∨ z = v) :
    WordTrie (update child (u,c) (some v)) root live' (update path v w) := by
  have hold : ∀ {y}, live y → update path v w y = path y := fun {y} hy => update_of_ne (fun heq : y = v => hv (heq ▸ hy)) _ _
  refine ⟨(hlive _).mpr (.inl h.root_live),(hold h.root_live).trans h.root_path,fun {a b y} hy => ?_,fun {y} hy hne => ?_⟩
  · by_cases hab : (a,b) = (u,c)
    · obtain ⟨rfl,rfl⟩ := Prod.mk.inj hab
      rw [update_self] at hy
      cases hy
      rw [hold hu,update_self]
      exact ⟨(hlive _).mpr (.inl hu),(hlive _).mpr (.inr rfl),hw⟩
    · rw [update_of_ne hab] at hy
      obtain ⟨ha,hy,hp⟩ := h.below hy
      rw [hold ha,hold hy]
      exact ⟨(hlive _).mpr (.inl ha),(hlive _).mpr (.inl hy),hp⟩
  · rcases (hlive y).mp hy with hy | rfl
    · obtain ⟨a,b,hab⟩ := h.parent hy hne
      refine ⟨a,b,?_⟩
      rwa [update_of_ne (fun heq => by rw [heq,hfree] at hab; cases hab)]
    · exact ⟨u,c,update_self ..⟩

/-- A node in the middle of an edge. -/
theorem split (h : WordTrie child root live path) (he : child (u,c) = some z) (hm : ¬live m) (hw : path u ++ [c] <+: w)
    (hd : w ++ [d] <+: path z) (hlive : ∀ z, live' z ↔ live z ∨ z = m) :
    WordTrie (update (update child (m,d) (some z)) (u,c) (some m)) root live' (update path m w) := by
  obtain ⟨hu,hz,-⟩ := h.below he
  have hold : ∀ {y}, live y → update path m w y = path y := fun {y} hy => update_of_ne (fun heq : y = m => hm (heq ▸ hy)) _ _
  have hum : u ≠ m := fun heq => hm (heq ▸ hu)
  refine ⟨(hlive _).mpr (.inl h.root_live),(hold h.root_live).trans h.root_path,fun {a b y} hy => ?_,fun {y} hy hne => ?_⟩
  · by_cases hab : (a,b) = (u,c)
    · obtain ⟨rfl,rfl⟩ := Prod.mk.inj hab
      rw [update_self] at hy
      cases hy
      rw [hold hu,update_self]
      exact ⟨(hlive _).mpr (.inl hu),(hlive _).mpr (.inr rfl),hw⟩
    · rw [update_of_ne hab] at hy
      by_cases hmd : (a,b) = (m,d)
      · obtain ⟨rfl,rfl⟩ := Prod.mk.inj hmd
        rw [update_self] at hy
        cases hy
        rw [hold hz,update_self]
        exact ⟨(hlive _).mpr (.inr rfl),(hlive _).mpr (.inl hz),hd⟩
      · rw [update_of_ne hmd] at hy
        obtain ⟨ha,hy,hp⟩ := h.below hy
        rw [hold ha,hold hy]
        exact ⟨(hlive _).mpr (.inl ha),(hlive _).mpr (.inl hy),hp⟩
  · rcases (hlive y).mp hy with hy | rfl
    · obtain ⟨a,b,hab⟩ := h.parent hy hne
      by_cases heq : (a,b) = (u,c)
      · rw [heq,he] at hab
        cases hab
        exact ⟨m,d,by rw [update_of_ne (fun heq => hum (Prod.mk.inj heq).1.symm),update_self]⟩
      · have hne' : (a,b) ≠ (m,d) := fun heq => hm ((Prod.mk.inj heq).1 ▸ (h.below hab).1)
        refine ⟨a,b,?_⟩
        rwa [update_of_ne heq,update_of_ne hne']
    · exact ⟨u,c,update_self ..⟩

end update

end WordTrie

end Catlib
