import Mathlib.Logic.Basic
import Mathlib.Data.Nat.Notation

/-! # Loops with a turn budget

A loop body answers with the next state, with a result, or with nothing at all (a
failed assertion, an access the language does not define). Running out of turns
also answers with nothing, so an equation `loop body k s = some r` says that the
loop really came back. The total rule turns an invariant and a decreasing measure
into such an equation.
-/
namespace Catlib

variable {σ ρ : Type*}

/-- What one turn of a loop decides. -/
inductive Turn (σ ρ : Type*) where
  | again (s : σ)
  | leave (r : ρ)

/-- Run `body` from `s` for at most the given number of turns. -/
def loop (body : σ → Option (Turn σ ρ)) : ℕ → σ → Option ρ
  | 0, _ => none
  | k + 1, s =>
    match body s with
    | none => none
    | some (.again s') => loop body k s'
    | some (.leave r) => some r

@[simp] theorem loop_zero (body : σ → Option (Turn σ ρ)) (s : σ) : loop body 0 s = none := rfl

theorem loop_again {body : σ → Option (Turn σ ρ)} {k : ℕ} {s t : σ}
    (h : body s = some (.again t)) : loop body (k + 1) s = loop body k t := by
  simp only [loop, h]

theorem loop_leave {body : σ → Option (Turn σ ρ)} {k : ℕ} {s : σ} {r : ρ}
    (h : body s = some (.leave r)) : loop body (k + 1) s = some r := by
  simp only [loop, h]

theorem loop_none {body : σ → Option (Turn σ ρ)} {s : σ} (h : body s = none) (k : ℕ) : loop body k s = none := by
  cases k with
  | zero => rfl
  | succ k => simp only [loop, h]

theorem loop_stuck {body : σ → Option (Turn σ ρ)} {s : σ} (h : body s = some (.again s)) (k : ℕ) : loop body k s = none := by
  induction k with
  | zero => rfl
  | succ k ih => rw [loop_again h,ih]

theorem loop_total {body : σ → Option (Turn σ ρ)} {I : ℕ → σ → Prop} {Q : ρ → Prop}
    (hbody : ∀ n s, I n s → (∃ s' m, body s = some (.again s') ∧ m < n ∧ I m s') ∨
      ∃ r, body s = some (.leave r) ∧ Q r)
    {k n : ℕ} {s : σ} (hs : I n s) (hk : n < k) : ∃ r, loop body k s = some r ∧ Q r := by
  induction k generalizing s n with
  | zero => omega
  | succ k ih =>
    rcases hbody n s hs with ⟨s',m,hb,hm,hs'⟩ | ⟨r,hb,hr⟩
    · rw [loop_again hb]
      exact ih hs' (by omega)
    · exact ⟨r,loop_leave hb,hr⟩

/-- The states a loop goes through. -/
inductive Reaches (body : σ → Option (Turn σ ρ)) (s : σ) : σ → Prop
  | refl : Reaches body s s
  | again {t u : σ} (h : Reaches body s t) (hb : body t = some (.again u)) : Reaches body s u

theorem Reaches.result {body : σ → Option (Turn σ ρ)} {s t : σ} {k : ℕ} {r : ρ} (h : Reaches body s t)
    (hr : loop body k s = some r) : ∃ m, loop body m t = some r := by
  induction h with
  | refl => exact ⟨k,hr⟩
  | again _ hb ih =>
    obtain ⟨m,hm⟩ := ih
    cases m with
    | zero => cases hm
    | succ m => exact ⟨m,(loop_again hb).symm.trans hm⟩

theorem Reaches.invariant {body : σ → Option (Turn σ ρ)} {I : ℕ → σ → Prop} {Q : ρ → Prop}
    (hbody : ∀ n s, I n s → (∃ s' m, body s = some (.again s') ∧ m < n ∧ I m s') ∨
      ∃ r, body s = some (.leave r) ∧ Q r)
    {n : ℕ} {s t : σ} (hs : I n s) (hr : Reaches body s t) : ∃ m, I m t := by
  induction hr with
  | refl => exact ⟨n,hs⟩
  | again _ hb ih =>
    obtain ⟨k,hk⟩ := ih
    rcases hbody k _ hk with ⟨u,m,hb',-,hu⟩ | ⟨r,hb',-⟩
    · rw [hb] at hb'
      cases hb'
      exact ⟨m,hu⟩
    · rw [hb] at hb'
      cases hb'

theorem loop_asked {body : σ → Option (Turn σ ρ)} {I : ℕ → σ → Prop} {ok : σ → Prop} {Q : ρ → Prop}
    (hbody : ∀ n s, I n s → ok s → (∃ s' m, body s = some (.again s') ∧ m < n ∧ I m s') ∨
      ∃ r, body s = some (.leave r) ∧ Q r)
    {k n : ℕ} {s : σ} (hs : I n s) (hok : ∀ t, Reaches body s t → ok t) (hk : n < k) : ∃ r, loop body k s = some r ∧ Q r := by
  refine loop_total (I := fun n t => I n t ∧ Reaches body s t) (fun n t ht => ?_) ⟨hs,.refl⟩ hk
  rcases hbody n t ht.1 (hok t ht.2) with ⟨t',m,hb,hm,ht'⟩ | h
  · exact Or.inl ⟨t',m,hb,hm,ht',ht.2.again hb⟩
  · exact Or.inr h

theorem Reaches.asked {body : σ → Option (Turn σ ρ)} {I : ℕ → σ → Prop} {ok : σ → Prop} {Q C : ρ → Prop}
    (hbody : ∀ n s, I n s → ok s → (∃ s' m, body s = some (.again s') ∧ m < n ∧ I m s') ∨
      ∃ r, body s = some (.leave r) ∧ Q r)
    (hbad : ∀ n s k r, I n s → ¬ok s → loop body k s = some r → ¬C r)
    {k n : ℕ} {s t : σ} {r : ρ} (hs : I n s) (hr : loop body k s = some r) (hc : C r) (ht : Reaches body s t) :
    ok t ∧ ∃ m, I m t := by
  have hok : ∀ m u, I m u → Reaches body s u → ok u := by
    intro m u hu hsu
    obtain ⟨j,hj⟩ := hsu.result hr
    exact Classical.byContradiction fun hno => hbad m u j r hu hno hj hc
  induction ht with
  | refl => exact ⟨hok n s hs .refl,n,hs⟩
  | again htu hb ih =>
    obtain ⟨hok',m,hm⟩ := ih
    rcases hbody m _ hm hok' with ⟨u,j,hb',-,hu⟩ | ⟨r',hb',-⟩
    · rw [hb] at hb'
      cases hb'
      exact ⟨hok j _ hu (htu.again hb),j,hu⟩
    · rw [hb] at hb'
      cases hb'

theorem loop_partial {body : σ → Option (Turn σ ρ)} {I : σ → Prop} {Q : ρ → Prop}
    (hagain : ∀ s s', I s → body s = some (.again s') → I s')
    (hleave : ∀ s r, I s → body s = some (.leave r) → Q r)
    {k : ℕ} {s : σ} {r : ρ} (hs : I s) (hr : loop body k s = some r) : Q r := by
  induction k generalizing s with
  | zero => simp at hr
  | succ k ih =>
    cases hb : body s with
    | none => simp [loop, hb] at hr
    | some t =>
      cases t with
      | again s' => exact ih (hagain s s' hs hb) (by rwa [loop_again hb] at hr)
      | leave r' =>
        rw [loop_leave hb] at hr
        cases hr
        exact hleave s r hs hb

/-- Two turns that go the same way, to related states or with related results. -/
inductive Turn.Rel {σ' ρ' : Type*} (R : σ → σ' → Prop) (Q : ρ → ρ' → Prop) : Turn σ ρ → Turn σ' ρ' → Prop
  | again {s : σ} {s' : σ'} (h : R s s') : Turn.Rel R Q (.again s) (.again s')
  | leave {r : ρ} {r' : ρ'} (h : Q r r') : Turn.Rel R Q (.leave r) (.leave r')

theorem loop_follows {σ' ρ' : Type*} {R : σ → σ' → Prop} {Q : ρ → ρ' → Prop} {body : σ → Option (Turn σ ρ)}
    {body' : σ' → Option (Turn σ' ρ')} (hbody : ∀ s s' t, R s s' → body s = some t → ∃ t', body' s' = some t' ∧ Turn.Rel R Q t t')
    {k : ℕ} {s : σ} {s' : σ'} {r : ρ} (hs : R s s') (hr : loop body k s = some r) : ∃ r', loop body' k s' = some r' ∧ Q r r' := by
  induction k generalizing s s' with
  | zero => cases hr
  | succ k ih =>
    cases hb : body s with
    | none =>
      rw [loop_none hb] at hr
      cases hr
    | some t =>
      obtain ⟨t',hb',ht⟩ := hbody s s' t hs hb
      cases ht with
      | again h =>
        rw [loop_again hb] at hr
        rw [loop_again hb']
        exact ih h hr
      | leave h =>
        rw [loop_leave hb] at hr
        cases hr
        exact ⟨_,loop_leave hb',h⟩

theorem loop_congr {body body' : σ → Option (Turn σ ρ)} {I : σ → Prop} (hb : ∀ s, I s → body' s = body s)
    (hagain : ∀ s s', I s → body s = some (.again s') → I s') {k : ℕ} {s : σ} (hs : I s) :
    loop body' k s = loop body k s := by
  induction k generalizing s with
  | zero => rfl
  | succ k ih =>
    rw [loop,loop,hb s hs]
    cases he : body s with
    | none => rfl
    | some t =>
      cases t with
      | again s' => exact ih (hagain s s' hs he)
      | leave r => rfl

theorem loop_enough {body : σ → Option (Turn σ ρ)} {μ : σ → ℕ} (hless : ∀ s t, body s = some (.again t) → μ t < μ s)
    {k m : ℕ} {s : σ} (hk : μ s < k) (hm : μ s < m) : loop body k s = loop body m s := by
  induction k generalizing m s with
  | zero => omega
  | succ k ih =>
    obtain ⟨m,rfl⟩ : ∃ m', m = m' + 1 := ⟨m - 1,by omega⟩
    rw [loop,loop]
    cases hb : body s with
    | none => rfl
    | some t =>
      cases t with
      | again t =>
        have := hless s t hb
        exact ih (by omega) (by omega)
      | leave r => rfl

/-! ## Larger budgets -/

/-- Whatever the first answers, the second answers too. -/
def Grows (x y : Option ρ) : Prop := ∀ r, x = some r → y = some r

theorem Grows.refl (x : Option ρ) : Grows x x := fun _ h => h

theorem Grows.bind {x y : Option σ} {f g : σ → Option ρ} (hxy : Grows x y) (hfg : ∀ a, Grows (f a) (g a)) :
    Grows (x.bind f) (y.bind g) := by
  intro r hr
  cases hx : x with
  | none => simp [hx] at hr
  | some a =>
    rw [hx,Option.bind_some] at hr
    rw [hxy a hx,Option.bind_some]
    exact hfg a r hr

theorem Grows.ite {p : Prop} [Decidable p] {x y x' y' : Option ρ} (hx : Grows x x') (hy : Grows y y') :
    Grows (if p then x else y) (if p then x' else y') := by
  split
  · exact hx
  · exact hy

theorem loop_grows_body {body body' : σ → Option (Turn σ ρ)} (hb : ∀ s, Grows (body s) (body' s)) {k m : ℕ} (hkm : k ≤ m)
    (s : σ) : Grows (loop body k s) (loop body' m s) := by
  intro r hr
  induction k generalizing s m with
  | zero => simp at hr
  | succ k ih =>
    obtain ⟨m,rfl⟩ : ∃ m', m = m' + 1 := ⟨m - 1,by omega⟩
    cases ht : body s with
    | none => simp [loop, ht] at hr
    | some t =>
      have ht' := hb s t ht
      cases t with
      | again s' =>
        rw [loop_again ht] at hr
        rw [loop_again ht']
        exact ih (by omega) s' hr
      | leave r' =>
        rw [loop_leave ht] at hr
        rwa [loop_leave ht']

theorem loop_grows {body : σ → Option (Turn σ ρ)} {k m : ℕ} (hkm : k ≤ m) (s : σ) :
    Grows (loop body k s) (loop body m s) := loop_grows_body (fun _ => Grows.refl _) hkm s

/-- Whatever the first answers, the second answers too, or it answers with an error. -/
def GrowsOr (bad : ρ → Prop) (x y : Option ρ) : Prop := ∀ r, x = some r → y = some r ∨ ∃ r', y = some r' ∧ bad r'

theorem GrowsOr.refl (bad : ρ → Prop) (x : Option ρ) : GrowsOr bad x x := fun _ h => Or.inl h

theorem GrowsOr.ite {bad : ρ → Prop} {p : Prop} [Decidable p] {x y x' y' : Option ρ} (hx : GrowsOr bad x x')
    (hy : GrowsOr bad y y') : GrowsOr bad (if p then x else y) (if p then x' else y') := by
  split
  · exact hx
  · exact hy

theorem GrowsOr.bind {bad : σ → Prop} {bad' : ρ → Prop} {x y : Option σ} {f g : σ → Option ρ} (hxy : GrowsOr bad x y)
    (hfg : ∀ a, GrowsOr bad' (f a) (g a)) (hbad : ∀ a, bad a → ∃ r, g a = some r ∧ bad' r) :
    GrowsOr bad' (x.bind f) (y.bind g) := by
  intro r hr
  cases hx : x with
  | none => simp [hx] at hr
  | some a =>
    rw [hx,Option.bind_some] at hr
    rcases hxy a hx with hy | ⟨b,hy,hb⟩
    · rw [hy,Option.bind_some]
      exact hfg a r hr
    · rw [hy,Option.bind_some]
      exact Or.inr (hbad b hb)

/-- A turn that leaves with an error. -/
def BadTurn (bad : ρ → Prop) (t : Turn σ ρ) : Prop := ∃ r, t = .leave r ∧ bad r

theorem loop_growsOr {bad : ρ → Prop} {body body' : σ → Option (Turn σ ρ)}
    (hb : ∀ s, GrowsOr (BadTurn bad) (body s) (body' s)) (k : ℕ) (s : σ) : GrowsOr bad (loop body k s) (loop body' k s) := by
  intro r hr
  induction k generalizing s with
  | zero => simp at hr
  | succ k ih =>
    cases ht : body s with
    | none => simp [loop, ht] at hr
    | some t =>
      rcases hb s t ht with ht' | ⟨-,ht',r',rfl,hbad⟩
      · cases t with
        | again s' =>
          rw [loop_again ht] at hr
          rw [loop_again ht']
          exact ih s' hr
        | leave r' =>
          rw [loop_leave ht] at hr
          rw [loop_leave ht']
          exact Or.inl hr
      · rw [loop_leave ht']
        exact Or.inr ⟨r',rfl,hbad⟩

theorem Grows.agree {f : ℕ → Option ρ} (hf : ∀ k m, k ≤ m → Grows (f k) (f m)) {k m : ℕ} {r r' : ρ}
    (hr : f k = some r) (hr' : f m = some r') : r = r' := by
  have h1 := hf k (max k m) (by omega) r hr
  have h2 := hf m (max k m) (by omega) r' hr'
  rw [h1] at h2
  exact Option.some.inj h2

end Catlib

/-! # Postconditions of fallible steps

`Post Q o`: if `o` comes back, then with a value in `Q`. The rules follow the way such code is put together.
-/
namespace Catlib

variable {α ρ σ : Type*} {Q : ρ → Prop}

def Post (Q : ρ → Prop) (o : Option ρ) : Prop := ∀ r, o = some r → Q r

theorem Post.some {r : ρ} (hr : Q r) : Post Q (some r) := by
  rintro _ ⟨⟩
  exact hr

theorem Post.none : Post Q none := by
  rintro _ ⟨⟩

theorem Post.bind {P : α → Prop} {o : Option α} {f : α → Option ρ} (ho : Post P o) (hf : ∀ a, P a → Post Q (f a)) :
    Post Q (o.bind f) := by
  intro r hr
  obtain ⟨a,ha,hfa⟩ := Option.bind_eq_some_iff.1 hr
  exact hf a (ho a ha) r hfa

theorem Post.after {o : Option α} {f : α → Option ρ} (hf : ∀ a, Post Q (f a)) : Post Q (o.bind f) :=
  Post.bind (P := fun _ => True) (fun _ _ => trivial) fun a _ => hf a

theorem Post.ite {p : Prop} [Decidable p] {o o' : Option ρ} (h1 : Post Q o) (h2 : Post Q o') :
    Post Q (if p then o else o') := by
  split
  · exact h1
  · exact h2

theorem Post.mono {P : ρ → Prop} {o : Option ρ} (ho : Post P o) (h : ∀ r, P r → Q r) : Post Q o :=
  fun r hr => h r (ho r hr)

/-- What a turn of a loop ends with. -/
def Turn.All (I : σ → Prop) (Q : ρ → Prop) : Turn σ ρ → Prop
  | .again s => I s
  | .leave r => Q r

theorem Post.loop {body : σ → Option (Turn σ ρ)} {I : σ → Prop} (hbody : ∀ s, I s → Post (Turn.All I Q) (body s))
    {s : σ} (hs : I s) (k : ℕ) : Post Q (loop body k s) :=
  fun _ hr => loop_partial (fun s _ hs he => hbody s hs _ he) (fun s _ hs he => hbody s hs _ he) hs hr

end Catlib
