import Mathlib.Logic.Basic
import Mathlib.Data.Nat.Notation

/-! # Programs that leave a record

A program changes a state and leaves a record of events. It comes back with a value or stops with
a fault, and the record is there in both cases. A contract speaks of the runs whose events are all
as it demands.
-/
namespace Catlib

variable {ε ω σ α β : Type}

/-- The events of a run and what it ends with. -/
structure Ran (ε ω σ α : Type) where
  events : List ω
  result : Except ε (α × σ)

def Traced (ε ω σ α : Type) : Type := σ → Ran ε ω σ α

namespace Traced

instance : Monad (Traced ε ω σ) where
  pure a := fun s => ⟨[],.ok (a,s)⟩
  bind m f := fun s =>
    match m s with
    | ⟨ev,.ok (a,s')⟩ =>
      let r := f a s'
      ⟨ev ++ r.events,r.result⟩
    | ⟨ev,.error e⟩ => ⟨ev,.error e⟩

def fail (e : ε) : Traced ε ω σ α := fun _ => ⟨[],.error e⟩
def note (w : ω) : Traced ε ω σ Unit := fun s => ⟨[w],.ok ((),s)⟩
def get : Traced ε ω σ σ := fun s => ⟨[],.ok (s,s)⟩
def modify (f : σ → σ) : Traced ε ω σ Unit := fun s => ⟨[],.ok ((),f s)⟩

/-- A program that needs no state, in one that has a state. -/
def lift (m : Traced ε ω Unit α) : Traced ε ω σ α := fun s =>
  match m () with
  | ⟨ev,.ok (a,_)⟩ => ⟨ev,.ok (a,s)⟩
  | ⟨ev,.error e⟩ => ⟨ev,.error e⟩

/-! ## Contracts -/

/-- If all events of the run are as demanded, the value and the state it comes back with are in `Q`,
and a fault that stops it is in `E`. -/
def Run (Ok : ω → Prop) (E : ε → Prop) (m : Traced ε ω σ α) (s : σ) (Q : α → σ → Prop) : Prop :=
  (∀ w ∈ (m s).events, Ok w) → (∀ a s', (m s).result = .ok (a,s') → Q a s') ∧ ∀ e, (m s).result = .error e → E e

variable {Ok : ω → Prop} {E : ε → Prop} {m : Traced ε ω σ α} {f : α → Traced ε ω σ β} {s : σ}
variable {P : α → σ → Prop} {Q : β → σ → Prop}

theorem Run.mono {R : α → σ → Prop} (h : Run Ok E m s P) (hPR : ∀ a s', P a s' → R a s') : Run Ok E m s R :=
  fun hev => ⟨fun a s' hr => hPR a s' ((h hev).1 a s' hr),(h hev).2⟩

theorem Run.and {Ok' : ω → Prop} {E' : ε → Prop} {R : α → σ → Prop} (h : Run Ok E m s P) (h' : Run Ok' E' m s R) :
    Run (fun w => Ok w ∧ Ok' w) (fun e => E e ∧ E' e) m s fun a s' => P a s' ∧ R a s' := fun hev =>
  have hl := h fun w hw => (hev w hw).1
  have hr := h' fun w hw => (hev w hw).2
  ⟨fun a s' ha => ⟨hl.1 a s' ha,hr.1 a s' ha⟩,fun e he => ⟨hl.2 e he,hr.2 e he⟩⟩

theorem Run.weaken {Ok' : ω → Prop} {E' : ε → Prop} (h : Run Ok E m s P) (hOk : ∀ w, Ok' w → Ok w) (hE : ∀ e, E e → E' e) :
    Run Ok' E' m s P := fun hev =>
  have hl := h fun w hw => hOk w (hev w hw)
  ⟨hl.1,fun e he => hE e (hl.2 e he)⟩

theorem bind_apply (m : Traced ε ω σ α) (f : α → Traced ε ω σ β) (s : σ) : (m >>= f) s =
    match m s with
    | ⟨ev,.ok (a,s')⟩ => ⟨ev ++ (f a s').events,(f a s').result⟩
    | ⟨ev,.error e⟩ => ⟨ev,.error e⟩ := rfl

theorem bind_ok {a : α} {t : σ} (h : (m s).result = .ok (a,t)) : ((m >>= f) s).result = (f a t).result := by
  rw [bind_apply]
  generalize m s = r at h ⊢
  rcases r with ⟨ev,e | ⟨b,u⟩⟩
  · cases h
  · cases h
    rfl

theorem Run.bind (hm : Run Ok E m s P) (hf : ∀ a s', P a s' → Run Ok E (f a) s' Q) : Run Ok E (m >>= f) s Q := by
  intro hev
  rw [Run] at hm
  rw [bind_apply] at hev ⊢
  generalize m s = r at hev hm ⊢
  rcases r with ⟨ev,e | ⟨a,t⟩⟩
  · refine ⟨fun b s' hr => (nomatch hr),fun e' hr => ?_⟩
    cases hr
    exact (hm hev).2 e rfl
  · have hP := (hm fun w hw => hev w (List.mem_append_left _ hw)).1 a t rfl
    exact hf a t hP fun w hw => hev w (List.mem_append_right _ hw)

theorem Run.pure {a : α} (h : P a s) : Run Ok E (Pure.pure a : Traced ε ω σ α) s P := by
  refine fun _ => ⟨fun b t hr => ?_,fun e hr => nomatch hr⟩
  cases hr
  exact h

theorem Run.fail {e : ε} (h : E e) : Run Ok E (Traced.fail e : Traced ε ω σ α) s P := by
  refine fun _ => ⟨fun b t hr => (nomatch hr),fun e' hr => ?_⟩
  cases hr
  exact h

theorem Run.note {w : ω} {R : Unit → σ → Prop} (h : Ok w → R () s) : Run Ok E (Traced.note w) s R := by
  refine fun hev => ⟨fun b t hr => ?_,fun e hr => nomatch hr⟩
  cases hr
  exact h (hev w (List.mem_singleton_self w))

theorem Run.get {R : σ → σ → Prop} (h : R s s) : Run Ok E (Traced.get : Traced ε ω σ σ) s R := by
  refine fun _ => ⟨fun b t hr => ?_,fun e hr => nomatch hr⟩
  cases hr
  exact h

theorem Run.modify {g : σ → σ} {R : Unit → σ → Prop} (h : R () (g s)) : Run Ok E (Traced.modify g : Traced ε ω σ Unit) s R := by
  refine fun _ => ⟨fun b t hr => ?_,fun e hr => nomatch hr⟩
  cases hr
  exact h

theorem lift_apply (n : Traced ε ω Unit α) (s : σ) : lift n s =
    match n () with
    | ⟨ev,.ok (a,_)⟩ => ⟨ev,.ok (a,s)⟩
    | ⟨ev,.error e⟩ => ⟨ev,.error e⟩ := rfl

theorem lift_ok {n : Traced ε ω Unit α} {a : α} {u : Unit} (h : (n ()).result = .ok (a,u)) :
    (Traced.lift n s).result = .ok (a,s) := by
  rw [lift_apply]
  generalize n () = r at h ⊢
  rcases r with ⟨ev,e | ⟨b,u⟩⟩
  · cases h
  · cases h
    rfl

theorem Run.lift {n : Traced ε ω Unit α} (h : Run Ok E n () fun a _ => P a s) : Run Ok E (Traced.lift n) s P := by
  intro hev
  rw [Run] at h
  rw [lift_apply] at hev ⊢
  generalize n () = r at hev h ⊢
  rcases r with ⟨ev,e | ⟨a,u⟩⟩
  · refine ⟨fun b t hr => (nomatch hr),fun e' hr => ?_⟩
    cases hr
    exact (h hev).2 e rfl
  · refine ⟨fun b t hr => ?_,fun e hr => nomatch hr⟩
    cases hr
    exact (h hev).1 a () rfl

theorem Run.any : Run Ok (fun _ => True) m s fun _ _ => True := fun _ => ⟨fun _ _ _ => trivial,fun _ _ => trivial⟩

theorem Run.of_ok {a : α} {t : σ} (h : (m s).result = .ok (a,t)) : Run Ok E m s fun b u => b = a ∧ u = t := by
  refine fun _ => ⟨fun b u hr => ?_,fun e hr => ?_⟩
  · rw [h] at hr
    cases hr
    exact ⟨rfl,rfl⟩
  · rw [h] at hr
    cases hr

theorem Run.noted {w : ω} {f : Unit → Traced ε ω σ β} (h : Ok w → Run Ok E (f ()) s Q) : Run Ok E (Traced.note w >>= f) s Q :=
  Run.bind (P := fun _ t => Ok w ∧ t = s) (Run.note fun hw => ⟨hw,rfl⟩) fun _ _ ht => by
    obtain ⟨hw,rfl⟩ := ht
    exact h hw

theorem Run.got {f : σ → Traced ε ω σ β} (h : Run Ok E (f s) s Q) : Run Ok E (Traced.get >>= f) s Q :=
  Run.bind (P := fun a t => a = s ∧ t = s) (Run.get ⟨rfl,rfl⟩) fun _ _ ht => by
    obtain ⟨rfl,rfl⟩ := ht
    exact h

theorem Run.modified {g : σ → σ} {f : Unit → Traced ε ω σ β} (h : Run Ok E (f ()) (g s) Q) :
    Run Ok E (Traced.modify g >>= f) s Q :=
  Run.bind (P := fun _ t => t = g s) (Run.modify rfl) fun _ _ ht => by
    obtain rfl := ht
    exact h

/-! ## Programs that stop at an event -/

/-- A run with an event that is not as demanded has stopped, with the one fault. -/
def Stops (Ok : ω → Prop) (e : ε) (m : Traced ε ω σ α) : Prop :=
  ∀ s, (∃ w ∈ (m s).events, ¬Ok w) → (m s).result = .error e

variable {e : ε}

theorem Stops.silent (h : ∀ s, (m s).events = []) : Stops Ok e m := by
  rintro s ⟨w,hw,-⟩
  rw [h s] at hw
  cases hw

theorem Stops.pure {a : α} : Stops Ok e (Pure.pure a : Traced ε ω σ α) := Stops.silent fun _ => rfl
theorem Stops.fail {e' : ε} : Stops Ok e (Traced.fail e' : Traced ε ω σ α) := Stops.silent fun _ => rfl
theorem Stops.get : Stops Ok e (Traced.get : Traced ε ω σ σ) := Stops.silent fun _ => rfl
theorem Stops.modify {g : σ → σ} : Stops Ok e (Traced.modify g : Traced ε ω σ Unit) := Stops.silent fun _ => rfl

theorem Stops.note {w : ω} (h : Ok w) : Stops Ok e (Traced.note w : Traced ε ω σ Unit) := by
  rintro s ⟨v,hv,hnot⟩
  rw [List.mem_singleton.1 hv] at hnot
  exact absurd h hnot

theorem Stops.bind (hm : Stops Ok e m) (hf : ∀ a, Stops Ok e (f a)) : Stops Ok e (m >>= f) := by
  rintro s ⟨w,hw,hnot⟩
  have hs := hm s
  rw [bind_apply] at hw ⊢
  generalize m s = r at hw hs ⊢
  rcases r with ⟨ev,e' | ⟨a,t⟩⟩
  · cases hs ⟨w,hw,hnot⟩
    rfl
  · rcases List.mem_append.1 hw with hw | hw
    · exact nomatch hs ⟨w,hw,hnot⟩
    · exact hf a t ⟨w,hw,hnot⟩

theorem Stops.bind_of {P : α → Prop} (hm : Stops Ok e m) (hrun : ∀ s, Run Ok E m s fun a _ => P a) (hf : ∀ a, P a → Stops Ok e (f a)) :
    Stops Ok e (m >>= f) := by
  rintro s ⟨w,hw,hnot⟩
  have hs := hm s
  have hr := hrun s
  rw [Run] at hr
  rw [bind_apply] at hw ⊢
  generalize m s = r at hw hs hr ⊢
  rcases r with ⟨ev,e' | ⟨a,t⟩⟩
  · cases hs ⟨w,hw,hnot⟩
    rfl
  · by_cases hev : ∀ v ∈ ev, Ok v
    · rcases List.mem_append.1 hw with hw | hw
      · exact absurd (hev w hw) hnot
      · exact hf a ((hr hev).1 a t rfl) t ⟨w,hw,hnot⟩
    · rw [not_forall] at hev
      obtain ⟨v,hv⟩ := hev
      rw [Classical.not_imp] at hv
      exact nomatch hs ⟨v,hv⟩

theorem Stops.lift {n : Traced ε ω Unit α} (h : Stops Ok e n) : Stops Ok e (Traced.lift n : Traced ε ω σ α) := by
  rintro s ⟨w,hw,hnot⟩
  have hs := h ()
  rw [lift_apply] at hw ⊢
  generalize n () = r at hw hs ⊢
  rcases r with ⟨ev,e' | ⟨a,u⟩⟩
  · cases hs ⟨w,hw,hnot⟩
    rfl
  · exact nomatch hs ⟨w,hw,hnot⟩

theorem Stops.noted {w : ω} {f : Unit → Traced ε ω σ β} (h : ¬Ok w → ∀ s, (f () s).result = .error e) (hf : Stops Ok e (f ())) :
    Stops Ok e (Traced.note w >>= f) := by
  rintro s ⟨v,hv,hnot⟩
  change v ∈ w :: (f () s).events at hv
  change (f () s).result = .error e
  rcases List.mem_cons.1 hv with rfl | hv
  · exact h hnot s
  · exact hf s ⟨v,hv,hnot⟩

end Traced

end Catlib
