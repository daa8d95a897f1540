import Mathlib.Data.List.TakeWhile
import Mathlib.Data.List.Infix

/-! # Lists cut at a separator

A list is its pieces with the separator between them. Its pieces begin with some that are not empty, and a
reader of pieces comes to their end or to the first empty one.
-/
namespace Catlib

variable {α : Type*} {ps front rest front' rest' gs : List (List α)} {g s t : List α} {sep : α}

/-- The pieces in front of the first empty one, and the others. -/
structure Fronts (ps front rest : List (List α)) : Prop where
  eq : ps = front ++ rest
  full : [] ∉ front
  stop : ∀ g ∈ rest.head?, g = []

namespace Fronts

theorem nil : Fronts ([] : List (List α)) [] [] := ⟨rfl,List.not_mem_nil,nofun⟩

theorem empty (l : List (List α)) : Fronts ([] :: l) [] ([] :: l) := ⟨rfl,List.not_mem_nil,by simp⟩

theorem cons (hg : g ≠ []) (h : Fronts ps front rest) : Fronts (g :: ps) (g :: front) rest where
  eq := by rw [h.eq,List.cons_append]
  full := fun hm => (List.mem_cons.mp hm).elim (fun he => hg he.symm) h.full
  stop := h.stop

theorem append (hgs : [] ∉ gs) (l : List (List α)) : Fronts (gs ++ [] :: l) gs ([] :: l) := ⟨rfl,hgs,by simp⟩

theorem all (hgs : [] ∉ gs) : Fronts gs gs [] := ⟨(List.append_nil _).symm,hgs,nofun⟩

theorem rest_cases (h : Fronts ps front rest) : rest = [] ∨ ∃ l, rest = [] :: l := by
  cases rest with
  | nil => exact .inl rfl
  | cons g l => exact .inr ⟨l,by rw [h.stop g rfl]⟩

theorem unique (h : Fronts ps front rest) (h' : Fronts ps front' rest') : front = front' ∧ rest = rest' := by
  obtain ⟨heq,hfull,hstop⟩ := h
  subst heq
  induction front generalizing front' with
  | nil =>
    cases front' with
    | nil => exact ⟨rfl,h'.eq⟩
    | cons g f =>
      refine absurd (hstop g ?_) fun hg => h'.full (hg ▸ List.mem_cons_self)
      rw [show rest = (g :: f) ++ rest' from h'.eq]
      rfl
  | cons g front ih =>
    rw [List.mem_cons,not_or] at hfull
    obtain ⟨hg,hfull⟩ := hfull
    cases front' with
    | nil => exact absurd (h'.stop g (by rw [← show g :: front ++ rest = rest' from h'.eq]; rfl)).symm hg
    | cons g' f =>
      obtain ⟨rfl,htail⟩ := List.cons_eq_cons.mp h'.eq
      obtain ⟨rfl,rfl⟩ := ih hfull ⟨htail,fun hm => h'.full (List.mem_cons_of_mem _ hm),h'.stop⟩
      exact ⟨rfl,rfl⟩

end Fronts

theorem exists_fronts (ps : List (List α)) : ∃ front rest, Fronts ps front rest := by
  induction ps with
  | nil => exact ⟨_,_,.nil⟩
  | cons g ps ih =>
    obtain rfl | hg := eq_or_ne g []
    · exact ⟨_,_,.empty ps⟩
    · obtain ⟨front,rest,h⟩ := ih
      exact ⟨_,_,h.cons hg⟩

/-! ## Text and pieces -/

/-- Pieces with the separator between them. -/
def joined (sep : α) (ps : List (List α)) : List α := [sep].intercalate ps

@[simp] theorem joined_nil : joined sep [] = [] := rfl

@[simp] theorem joined_singleton (g : List α) : joined sep [g] = g := List.intercalate_singleton

theorem joined_cons (hps : ps ≠ []) (g : List α) : joined sep (g :: ps) = g ++ sep :: joined sep ps := by
  rw [joined,List.intercalate_cons_of_ne_nil hps,List.append_assoc]
  rfl

theorem joined_append (hgs : gs ≠ []) (hps : ps ≠ []) : joined sep (gs ++ ps) = joined sep gs ++ sep :: joined sep ps := by
  induction gs with
  | nil => exact absurd rfl hgs
  | cons g gs ih =>
    cases gs with
    | nil => rw [List.singleton_append,joined_cons hps,joined_singleton]
    | cons g' gs =>
      rw [List.cons_append,joined_cons (List.append_ne_nil_of_left_ne_nil (List.cons_ne_nil _ _) _),ih (List.cons_ne_nil _ _),
        joined_cons (List.cons_ne_nil _ _),List.append_assoc,List.cons_append]

theorem joined_ended (hps : ps ≠ []) (gs : List (List α)) : joined sep (gs ++ ps) = gs.flatMap (· ++ [sep]) ++ joined sep ps := by
  induction gs with
  | nil => rfl
  | cons g gs ih =>
    rw [List.cons_append,joined_cons (List.append_ne_nil_of_right_ne_nil _ hps),ih,List.flatMap_cons,List.append_assoc,List.append_assoc]
    rfl

theorem Fronts.joined_le (h : Fronts ps front rest) : (joined sep rest).length ≤ (joined sep ps).length := by
  obtain rfl | ⟨l,rfl⟩ := h.rest_cases
  · exact Nat.zero_le _
  · rw [h.eq,joined_ended (List.cons_ne_nil _ _),List.length_append]
    exact Nat.le_add_left ..

theorem Fronts.length_le (h : Fronts ps front rest) : front.length ≤ (joined sep ps).length := by
  obtain ⟨rfl,hfull,-⟩ := h
  induction front with
  | nil => exact Nat.zero_le _
  | cons g front ih =>
    rw [List.mem_cons,not_or] at hfull
    have hg : 0 < g.length := List.length_pos_iff.mpr fun h => hfull.1 h.symm
    have ih := ih hfull.2
    obtain hnil | hne := eq_or_ne (front ++ rest) []
    · obtain ⟨rfl,rfl⟩ := List.append_eq_nil_iff.mp hnil
      exact (joined_singleton g).symm ▸ hg
    · rw [List.cons_append,joined_cons hne,List.length_append,List.length_cons,List.length_cons]
      omega

/-- The pieces that the text of some pieces is cut into: no text is one empty piece. -/
def padded (ps : List (List α)) : List (List α) := if ps = [] then [[]] else ps

theorem padded_ne_nil (ps : List (List α)) : padded ps ≠ [] := by
  rw [padded]
  split <;> simp_all

theorem joined_padded (sep : α) (ps : List (List α)) : joined sep (padded ps) = joined sep ps := by
  rw [padded]
  split
  · subst ps
    rfl
  · rfl

theorem joined_gap (hps : ps ≠ []) (gs : List (List α)) :
    joined sep (padded gs ++ [] :: ps) = joined sep gs ++ sep :: sep :: joined sep ps := by
  rw [joined_append (padded_ne_nil gs) (List.cons_ne_nil _ _),joined_padded,joined_cons hps,List.nil_append]

theorem Fronts.padded (hgs : [] ∉ gs) (ps : List (List α)) :
    Fronts (padded gs ++ [] :: ps) gs (if gs = [] then [] :: [] :: ps else [] :: ps) := by
  rw [Catlib.padded]
  split
  · subst gs
    exact .empty _
  · exact .append hgs ps

theorem padded_unique {as bs : List (List α)} (h : padded as ++ [] :: ps = padded bs ++ [] :: gs) (has : [] ∉ as) (hbs : [] ∉ bs) :
    as = bs ∧ ps = gs := by
  obtain ⟨rfl,hps⟩ := (h ▸ Fronts.padded has ps).unique (.padded hbs gs)
  split at hps <;> simp_all

variable [BEq α] [LawfulBEq α]

theorem joined_splitOn (sep : α) (s : List α) : joined sep (s.splitOn sep) = s := List.intercalate_splitOn sep

theorem splitOn_joined (hps : ∀ g ∈ ps, sep ∉ g) (hne : ps ≠ []) : (joined sep ps).splitOn sep = ps :=
  List.splitOn_intercalate sep hps hne

theorem splitOn_padded (hps : ∀ g ∈ ps, sep ∉ g) : (joined sep ps).splitOn sep = padded ps := by
  rw [padded]
  split
  · subst ps
    rfl
  · exact splitOn_joined hps ‹_›

theorem splitOn_ended (hgs : ∀ g ∈ gs, sep ∉ g) (s : List α) :
    (gs.flatMap (· ++ [sep]) ++ s).splitOn sep = gs ++ s.splitOn sep := by
  induction gs with
  | nil => rfl
  | cons g gs ih =>
    rw [List.forall_mem_cons] at hgs
    rw [List.flatMap_cons,List.append_assoc,List.append_assoc,List.singleton_append,
      List.splitOn_append_cons_self_of_not_mem hgs.1,ih hgs.2,List.cons_append]

theorem piece_spec (hg : g ∈ s.splitOn sep) : sep ∉ g ∧ ∀ c ∈ g, c ∈ s := by
  induction s generalizing g with
  | nil =>
    rw [List.splitOn_nil,List.mem_singleton] at hg
    subst hg
    exact ⟨List.not_mem_nil,nofun⟩
  | cons x s ih =>
    rw [List.splitOn_cons_eq_if_modifyHead] at hg
    split at hg
    · obtain rfl | hg := List.mem_cons.mp hg
      · exact ⟨List.not_mem_nil,nofun⟩
      · exact ⟨(ih hg).1,fun c hc => List.mem_cons_of_mem _ ((ih hg).2 c hc)⟩
    rename_i hx
    obtain ⟨f,l,hfl⟩ := List.exists_cons_of_ne_nil (List.splitOn_ne_nil sep s)
    rw [hfl] at hg ih
    obtain rfl | hg := List.mem_cons.mp hg
    · obtain ⟨hsep,hmem⟩ := ih List.mem_cons_self
      refine ⟨fun hm => (List.mem_cons.mp hm).elim (fun he => hx (beq_iff_eq.mpr he.symm)) hsep,fun c hc => ?_⟩
      exact (List.mem_cons.mp hc).elim (fun he => he ▸ List.mem_cons_self) fun hc => List.mem_cons_of_mem _ (hmem c hc)
    · obtain ⟨hsep,hmem⟩ := ih (List.mem_cons_of_mem _ hg)
      exact ⟨hsep,fun c hc => List.mem_cons_of_mem _ (hmem c hc)⟩

end Catlib

/-! # Absorbing a string in chunks

An update that takes a string like its first element and then the rest takes a string in any
chunks like the whole.
-/
namespace Catlib

variable {σ α : Type*} {add : σ → List α → σ} {I : σ → Prop}

theorem absorb_append (hnil : ∀ s, add s [] = s) (hcons : ∀ s a l, I s → add s (a :: l) = add (add s [a]) l)
    (hinv : ∀ s a, I s → I (add s [a])) (l m : List α) {s : σ} (hs : I s) : add s (l ++ m) = add (add s l) m ∧ I (add s l) := by
  induction l generalizing s with
  | nil => exact ⟨by rw [hnil]; rfl,by rwa [hnil]⟩
  | cons a l ih =>
    obtain ⟨h,hi⟩ := ih (hinv s a hs)
    rw [List.cons_append,hcons s a (l ++ m) hs,hcons s a l hs]
    exact ⟨h,hi⟩

theorem absorb_chunks (hnil : ∀ s, add s [] = s) (hcons : ∀ s a l, I s → add s (a :: l) = add (add s [a]) l)
    (hinv : ∀ s a, I s → I (add s [a])) (chunks : List (List α)) {s : σ} (hs : I s) :
    chunks.foldl add s = add s chunks.flatten := by
  induction chunks generalizing s with
  | nil => exact (hnil s).symm
  | cons c chunks ih =>
    obtain ⟨h,hi⟩ := absorb_append hnil hcons hinv c chunks.flatten hs
    rw [List.foldl_cons,List.flatten_cons,h,ih hi]

end Catlib

/-! # Pieces in a room

Pieces are put into a room one after another, each that still fits. When none is a part of the front
of another, what is put there is a front of them all exactly when nothing fits behind the first
that does not.
-/
namespace Catlib

variable {α : Type*} {n : ℕ} {c d : List α} {cs : List (List α)}

/-- What is put into a room of `n` elements. -/
def packed (n : ℕ) : List (List α) → List α
  | [] => []
  | c :: cs => if c.length ≤ n then c ++ packed (n - c.length) cs else packed n cs

/-- Behind the first piece that does not fit, none fits into the room that is left. -/
def Settles (n : ℕ) : List (List α) → Prop
  | [] => True
  | c :: cs => if c.length ≤ n then Settles (n - c.length) cs else ∀ d ∈ cs, n < d.length

/-- No piece is empty or a front of another. -/
structure Distinct (cs : List (List α)) : Prop where
  ne_nil : ∀ c ∈ cs, c ≠ []
  eq : ∀ c ∈ cs, ∀ d ∈ cs, c <+: d → c = d

theorem Distinct.sub {ds : List (List α)} (h : Distinct cs) (hsub : ds ⊆ cs) : Distinct ds :=
  ⟨fun d hd => h.ne_nil d (hsub hd),fun d hd e he => h.eq d (hsub hd) e (hsub he)⟩

theorem packed_none (h : ∀ d ∈ cs, n < d.length) : packed n cs = [] := by
  induction cs with
  | nil => rfl
  | cons c cs ih =>
    rw [List.forall_mem_cons] at h
    rw [packed,if_neg (not_le.mpr h.1)]
    exact ih h.2

theorem packed_all (h : cs.flatten.length ≤ n) : packed n cs = cs.flatten := by
  induction cs generalizing n with
  | nil => rfl
  | cons c cs ih =>
    rw [List.flatten_cons,List.length_append] at h
    rw [packed,if_pos (by omega),ih (by omega),List.flatten_cons]

theorem packed_settles (h : Settles n cs) : ∃ j, packed n cs = (cs.take j).flatten := by
  induction cs generalizing n with
  | nil => exact ⟨0,rfl⟩
  | cons c cs ih =>
    rw [Settles] at h
    rw [packed]
    by_cases hc : c.length ≤ n
    · rw [if_pos hc] at h ⊢
      obtain ⟨j,hj⟩ := ih h
      exact ⟨j + 1,by rw [hj,List.take_succ_cons,List.flatten_cons]⟩
    · rw [if_neg hc] at h ⊢
      exact ⟨0,packed_none h⟩

theorem packed_first (h : ∃ d ∈ cs, d.length ≤ n) : ∃ d ∈ cs, d.length ≤ n ∧ d <+: packed n cs := by
  induction cs with
  | nil =>
    obtain ⟨d,hd,-⟩ := h
    cases hd
  | cons c cs ih =>
    rw [packed]
    by_cases hc : c.length ≤ n
    · rw [if_pos hc]
      exact ⟨c,List.mem_cons_self,hc,List.prefix_append _ _⟩
    · rw [if_neg hc]
      obtain ⟨d,hd,hdn⟩ := h
      rcases List.mem_cons.mp hd with rfl | hd
      · exact absurd hdn hc
      · obtain ⟨e,he,hle,hpre⟩ := ih ⟨d,hd,hdn⟩
        exact ⟨e,List.mem_cons_of_mem _ he,hle,hpre⟩

theorem settles_of_packed (hcs : Distinct cs) {j : ℕ} (h : packed n cs = (cs.take j).flatten) : Settles n cs := by
  induction cs generalizing n j with
  | nil => trivial
  | cons c cs ih =>
    rw [Settles]
    rw [packed] at h
    have hne := hcs.ne_nil c List.mem_cons_self
    by_cases hc : c.length ≤ n
    · rw [if_pos hc] at h ⊢
      cases j with
      | zero => exact absurd (List.append_eq_nil_iff.mp h).1 hne
      | succ j =>
        rw [List.take_succ_cons,List.flatten_cons,List.append_cancel_left_eq] at h
        exact ih (hcs.sub (List.subset_cons_self _ _)) h
    · rw [if_neg hc] at h ⊢
      by_contra hfits
      push Not at hfits
      -- the piece that was put first stands where the one that did not fit would
      obtain ⟨d,hd,hdn,hpre⟩ := packed_first hfits
      have hdne := hcs.ne_nil d (List.mem_cons_of_mem _ hd)
      rw [h] at hpre
      cases j with
      | zero => exact hdne (List.prefix_nil.mp hpre)
      | succ j =>
        rw [List.take_succ_cons,List.flatten_cons] at hpre
        have hdc : d <+: c := List.prefix_of_prefix_length_le hpre (List.prefix_append _ _) (by omega)
        have heq := hcs.eq d (List.mem_cons_of_mem _ hd) c List.mem_cons_self hdc
        subst heq
        exact hc hdn

theorem Distinct.flatten_injective {ds : List (List α)} (h : Distinct (cs ++ ds)) (heq : cs.flatten = ds.flatten) : cs = ds := by
  induction cs generalizing ds with
  | nil =>
    cases ds with
    | nil => rfl
    | cons d ds => exact absurd (List.append_eq_nil_iff.mp heq.symm).1 (h.ne_nil d (by simp))
  | cons c cs ih =>
    cases ds with
    | nil => exact absurd (List.append_eq_nil_iff.mp heq).1 (h.ne_nil c (by simp))
    | cons d ds =>
      rw [List.flatten_cons,List.flatten_cons] at heq
      have hcd : c = d := by
        rcases List.prefix_or_prefix_of_prefix (List.prefix_append c cs.flatten) (heq ▸ List.prefix_append d ds.flatten) with hp | hp
        · exact h.eq c (by simp) d (by simp) hp
        · exact (h.eq d (by simp) c (by simp) hp).symm
      subst hcd
      rw [ih (h.sub fun x hx => ?_) (List.append_cancel_left heq)]
      rcases List.mem_append.mp hx with hx | hx <;> simp [hx]

theorem packed_front_iff (hcs : Distinct cs) : (∃ j, packed n cs = (cs.take j).flatten) ↔ Settles n cs :=
  ⟨fun ⟨_,h⟩ => settles_of_packed hcs h,packed_settles⟩

end Catlib
