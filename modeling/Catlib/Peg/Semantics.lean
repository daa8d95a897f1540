import Mathlib.Data.List.Basic

/-! # Parsing expression grammars

The big-step meaning of a parsing expression on an input: the number of items it
consumes, or failure. An expression whose run would not end has no meaning. Choice is
ordered, repetition greedy, and the two predicates consume nothing.
-/
namespace Catlib.Peg

variable {N α : Type}

inductive Pexp (N α : Type) where
  | eps
  | fail
  | cls (p : α → Bool)
  | lit (l : List α)
  | seq (e f : Pexp N α)
  | alt (e f : Pexp N α)
  | opt (e : Pexp N α)
  | star (e : Pexp N α)
  | plus (e : Pexp N α)
  | ahead (e : Pexp N α)
  | never (e : Pexp N α)
  | nt (a : N)

/-- `Eval R e x r`: on the input `x` the expression consumes `r` items, or fails. -/
inductive Eval (R : N → Pexp N α) : Pexp N α → List α → Option ℕ → Prop
  | eps {x : List α} : Eval R .eps x (some 0)
  | fail {x : List α} : Eval R .fail x none
  | clsHit {p : α → Bool} {c : α} {x : List α} (h : p c = true) : Eval R (.cls p) (c :: x) (some 1)
  | clsMiss {p : α → Bool} {c : α} {x : List α} (h : p c = false) : Eval R (.cls p) (c :: x) none
  | clsEnd {p : α → Bool} : Eval R (.cls p) [] none
  | litHit {l x : List α} (h : l <+: x) : Eval R (.lit l) x (some l.length)
  | litMiss {l x : List α} (h : ¬l <+: x) : Eval R (.lit l) x none
  | seqFail {e f : Pexp N α} {x : List α} (h : Eval R e x none) : Eval R (.seq e f) x none
  | seqStep {e f : Pexp N α} {x : List α} {n : ℕ} {r : Option ℕ} (h : Eval R e x (some n))
      (h' : Eval R f (x.drop n) r) : Eval R (.seq e f) x (r.map (n + ·))
  | altLeft {e f : Pexp N α} {x : List α} {n : ℕ} (h : Eval R e x (some n)) : Eval R (.alt e f) x (some n)
  | altRight {e f : Pexp N α} {x : List α} {r : Option ℕ} (h : Eval R e x none) (h' : Eval R f x r) :
      Eval R (.alt e f) x r
  | optHit {e : Pexp N α} {x : List α} {n : ℕ} (h : Eval R e x (some n)) : Eval R (.opt e) x (some n)
  | optMiss {e : Pexp N α} {x : List α} (h : Eval R e x none) : Eval R (.opt e) x (some 0)
  | starStop {e : Pexp N α} {x : List α} (h : Eval R e x none) : Eval R (.star e) x (some 0)
  | starStep {e : Pexp N α} {x : List α} {n m : ℕ} (h : Eval R e x (some n))
      (h' : Eval R (.star e) (x.drop n) (some m)) : Eval R (.star e) x (some (n + m))
  | plusFail {e : Pexp N α} {x : List α} (h : Eval R e x none) : Eval R (.plus e) x none
  | plusStep {e : Pexp N α} {x : List α} {n m : ℕ} (h : Eval R e x (some n))
      (h' : Eval R (.star e) (x.drop n) (some m)) : Eval R (.plus e) x (some (n + m))
  | aheadHit {e : Pexp N α} {x : List α} {n : ℕ} (h : Eval R e x (some n)) : Eval R (.ahead e) x (some 0)
  | aheadMiss {e : Pexp N α} {x : List α} (h : Eval R e x none) : Eval R (.ahead e) x none
  | neverHit {e : Pexp N α} {x : List α} {n : ℕ} (h : Eval R e x (some n)) : Eval R (.never e) x none
  | neverMiss {e : Pexp N α} {x : List α} (h : Eval R e x none) : Eval R (.never e) x (some 0)
  | nt {a : N} {x : List α} {r : Option ℕ} (h : Eval R (R a) x r) : Eval R (.nt a) x r

variable {R : N → Pexp N α} {e : Pexp N α} {x : List α} {r r' : Option ℕ}

theorem Eval.unique (h : Eval R e x r) (h' : Eval R e x r') : r = r' := by
  induction h generalizing r' with
  | eps | fail | clsEnd => cases h'; rfl
  | clsHit hp | clsMiss hp =>
    cases h' with
    | clsHit hq => simp_all
    | clsMiss hq => simp_all
  | litHit hp | litMiss hp =>
    cases h' with
    | litHit hq => first | rfl | exact absurd hq hp
    | litMiss hq => first | rfl | exact absurd hp hq
  | seqFail _ ih =>
    cases h' with
    | seqFail _ => rfl
    | seqStep h1 _ => cases ih h1
  | seqStep _ _ ih ih' =>
    cases h' with
    | seqFail h1 => cases ih h1
    | seqStep h1 h2 => cases ih h1; rw [ih' h2]
  | altLeft _ ih =>
    cases h' with
    | altLeft h1 => exact ih h1
    | altRight h1 _ => cases ih h1
  | altRight _ _ ih ih' =>
    cases h' with
    | altLeft h1 => cases ih h1
    | altRight _ h2 => exact ih' h2
  | optHit _ ih =>
    cases h' with
    | optHit h1 => exact ih h1
    | optMiss h1 => cases ih h1
  | optMiss _ ih =>
    cases h' with
    | optHit h1 => cases ih h1
    | optMiss _ => rfl
  | starStop _ ih =>
    cases h' with
    | starStop _ => rfl
    | starStep h1 _ => cases ih h1
  | starStep _ _ ih ih' =>
    cases h' with
    | starStop h1 => cases ih h1
    | starStep h1 h2 => cases ih h1; cases ih' h2; rfl
  | plusFail _ ih =>
    cases h' with
    | plusFail _ => rfl
    | plusStep h1 _ => cases ih h1
  | plusStep _ _ ih ih' =>
    cases h' with
    | plusFail h1 => cases ih h1
    | plusStep h1 h2 => cases ih h1; cases ih' h2; rfl
  | aheadHit _ ih =>
    cases h' with
    | aheadHit _ => rfl
    | aheadMiss h1 => cases ih h1
  | aheadMiss _ ih =>
    cases h' with
    | aheadHit h1 => cases ih h1
    | aheadMiss _ => rfl
  | neverHit _ ih =>
    cases h' with
    | neverHit _ => rfl
    | neverMiss h1 => cases ih h1
  | neverMiss _ ih =>
    cases h' with
    | neverHit h1 => cases ih h1
    | neverMiss _ => rfl
  | nt _ ih =>
    cases h' with
    | nt h1 => exact ih h1

/-! ## Looking at the end of the input -/

/-- `Trace R e x r b`: the meaning of the expression, and whether its run asks for an item
after the last one. A literal asks for one exactly when the input stops within it. -/
inductive Trace (R : N → Pexp N α) : Pexp N α → List α → Option ℕ → Bool → Prop
  | eps {x : List α} : Trace R .eps x (some 0) false
  | fail {x : List α} : Trace R .fail x none false
  | clsHit {p : α → Bool} {c : α} {x : List α} (h : p c = true) : Trace R (.cls p) (c :: x) (some 1) false
  | clsMiss {p : α → Bool} {c : α} {x : List α} (h : p c = false) : Trace R (.cls p) (c :: x) none false
  | clsEnd {p : α → Bool} : Trace R (.cls p) [] none true
  | litHit {l x : List α} (h : l <+: x) : Trace R (.lit l) x (some l.length) false
  | litMiss {l x : List α} (h : ¬l <+: x) (h' : ¬x <+: l) : Trace R (.lit l) x none false
  | litEnd {l x : List α} (h : ¬l <+: x) (h' : x <+: l) : Trace R (.lit l) x none true
  | seqFail {e f : Pexp N α} {x : List α} {b : Bool} (h : Trace R e x none b) : Trace R (.seq e f) x none b
  | seqStep {e f : Pexp N α} {x : List α} {n : ℕ} {r : Option ℕ} {b b' : Bool} (h : Trace R e x (some n) b)
      (h' : Trace R f (x.drop n) r b') : Trace R (.seq e f) x (r.map (n + ·)) (b || b')
  | altLeft {e f : Pexp N α} {x : List α} {n : ℕ} {b : Bool} (h : Trace R e x (some n) b) :
      Trace R (.alt e f) x (some n) b
  | altRight {e f : Pexp N α} {x : List α} {r : Option ℕ} {b b' : Bool} (h : Trace R e x none b)
      (h' : Trace R f x r b') : Trace R (.alt e f) x r (b || b')
  | optHit {e : Pexp N α} {x : List α} {n : ℕ} {b : Bool} (h : Trace R e x (some n) b) : Trace R (.opt e) x (some n) b
  | optMiss {e : Pexp N α} {x : List α} {b : Bool} (h : Trace R e x none b) : Trace R (.opt e) x (some 0) b
  | starStop {e : Pexp N α} {x : List α} {b : Bool} (h : Trace R e x none b) : Trace R (.star e) x (some 0) b
  | starStep {e : Pexp N α} {x : List α} {n m : ℕ} {b b' : Bool} (h : Trace R e x (some n) b)
      (h' : Trace R (.star e) (x.drop n) (some m) b') : Trace R (.star e) x (some (n + m)) (b || b')
  | plusFail {e : Pexp N α} {x : List α} {b : Bool} (h : Trace R e x none b) : Trace R (.plus e) x none b
  | plusStep {e : Pexp N α} {x : List α} {n m : ℕ} {b b' : Bool} (h : Trace R e x (some n) b)
      (h' : Trace R (.star e) (x.drop n) (some m) b') : Trace R (.plus e) x (some (n + m)) (b || b')
  | aheadHit {e : Pexp N α} {x : List α} {n : ℕ} {b : Bool} (h : Trace R e x (some n) b) :
      Trace R (.ahead e) x (some 0) b
  | aheadMiss {e : Pexp N α} {x : List α} {b : Bool} (h : Trace R e x none b) : Trace R (.ahead e) x none b
  | neverHit {e : Pexp N α} {x : List α} {n : ℕ} {b : Bool} (h : Trace R e x (some n) b) : Trace R (.never e) x none b
  | neverMiss {e : Pexp N α} {x : List α} {b : Bool} (h : Trace R e x none b) : Trace R (.never e) x (some 0) b
  | nt {a : N} {x : List α} {r : Option ℕ} {b : Bool} (h : Trace R (R a) x r b) : Trace R (.nt a) x r b

variable {b b' : Bool}

theorem Trace.eval (h : Trace R e x r b) : Eval R e x r := by
  induction h with
  | eps => exact .eps
  | fail => exact .fail
  | clsHit h => exact .clsHit h
  | clsMiss h => exact .clsMiss h
  | clsEnd => exact .clsEnd
  | litHit h => exact .litHit h
  | litMiss h _ => exact .litMiss h
  | litEnd h _ => exact .litMiss h
  | seqFail _ ih => exact .seqFail ih
  | seqStep _ _ ih ih' => exact .seqStep ih ih'
  | altLeft _ ih => exact .altLeft ih
  | altRight _ _ ih ih' => exact .altRight ih ih'
  | optHit _ ih => exact .optHit ih
  | optMiss _ ih => exact .optMiss ih
  | starStop _ ih => exact .starStop ih
  | starStep _ _ ih ih' => exact .starStep ih ih'
  | plusFail _ ih => exact .plusFail ih
  | plusStep _ _ ih ih' => exact .plusStep ih ih'
  | aheadHit _ ih => exact .aheadHit ih
  | aheadMiss _ ih => exact .aheadMiss ih
  | neverHit _ ih => exact .neverHit ih
  | neverMiss _ ih => exact .neverMiss ih
  | nt _ ih => exact .nt ih

theorem Trace.unique_end (h : Trace R e x r b) (h' : Trace R e x r' b') : b = b' := by
  induction h generalizing r' b' with
  | eps | fail => cases h'; rfl
  | clsHit _ | clsMiss _ | clsEnd => cases h' <;> rfl
  | litHit hp =>
    cases h' with
    | litHit => rfl
    | litMiss hq _ => rfl
    | litEnd hq _ => exact absurd hp hq
  | litMiss hp hx =>
    cases h' with
    | litHit _ => rfl
    | litMiss _ _ => rfl
    | litEnd _ hy => exact absurd hy hx
  | litEnd hp hx =>
    cases h' with
    | litHit hq => exact absurd hq hp
    | litMiss _ hy => exact absurd hx hy
    | litEnd _ _ => rfl
  | seqFail h ih =>
    cases h' with
    | seqFail h1 => exact ih h1
    | seqStep h1 _ => cases h.eval.unique h1.eval
  | seqStep h _ ih ih' =>
    cases h' with
    | seqFail h1 => cases h.eval.unique h1.eval
    | seqStep h1 h2 => cases h.eval.unique h1.eval; rw [ih h1,ih' h2]
  | altLeft h ih =>
    cases h' with
    | altLeft h1 => exact ih h1
    | altRight h1 _ => cases h.eval.unique h1.eval
  | altRight h _ ih ih' =>
    cases h' with
    | altLeft h1 => cases h.eval.unique h1.eval
    | altRight h1 h2 => rw [ih h1,ih' h2]
  | optHit _ ih | optMiss _ ih =>
    cases h' with
    | optHit h1 => exact ih h1
    | optMiss h1 => exact ih h1
  | starStop h ih =>
    cases h' with
    | starStop h1 => exact ih h1
    | starStep h1 _ => cases h.eval.unique h1.eval
  | starStep h _ ih ih' =>
    cases h' with
    | starStop h1 => cases h.eval.unique h1.eval
    | starStep h1 h2 => cases h.eval.unique h1.eval; rw [ih h1,ih' h2]
  | plusFail h ih =>
    cases h' with
    | plusFail h1 => exact ih h1
    | plusStep h1 _ => cases h.eval.unique h1.eval
  | plusStep h _ ih ih' =>
    cases h' with
    | plusFail h1 => cases h.eval.unique h1.eval
    | plusStep h1 h2 => cases h.eval.unique h1.eval; rw [ih h1,ih' h2]
  | aheadHit _ ih | aheadMiss _ ih =>
    cases h' with
    | aheadHit h1 => exact ih h1
    | aheadMiss h1 => exact ih h1
  | neverHit _ ih | neverMiss _ ih =>
    cases h' with
    | neverHit h1 => exact ih h1
    | neverMiss h1 => exact ih h1
  | nt _ ih =>
    cases h' with
    | nt h1 => exact ih h1

end Catlib.Peg
