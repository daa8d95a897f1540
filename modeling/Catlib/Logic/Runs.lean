import Mathlib.Logic.Basic

/-! # Conditions along runs

A run is a list of inputs that a step relation takes one by one. What holds before every step of
it is compared for two conditions that agree in all states of an invariant.
-/
namespace Catlib

variable {σ ι : Type*} {next : σ → ι → σ → Prop} {I : σ → Prop} {R P Q : σ → ι → Prop}

/-- The condition holds before every step of the run, wherever the steps lead. -/
def Along (next : σ → ι → σ → Prop) (P : σ → ι → Prop) : List ι → σ → Prop
  | [], _ => True
  | i :: is, s => P s i ∧ ∀ s', next s i s' → Along next P is s'

theorem Along.iff (hiff : ∀ s i, I s → R s i → (P s i ↔ Q s i))
    (hinv : ∀ s i, I s → R s i → P s i → ∀ s', next s i s' → I s') {is : List ι} {s : σ} (hs : I s)
    (hr : Along next R is s) : Along next P is s ↔ Along next Q is s := by
  induction is generalizing s with
  | nil => exact Iff.rfl
  | cons i is ih =>
    obtain ⟨hi,hrest⟩ := hr
    rw [Along,Along,← hiff s i hs hi]
    exact and_congr_right fun hp => forall_congr' fun s' => imp_congr_right fun hn =>
      ih (hinv s i hs hi hp s' hn) (hrest s' hn)

theorem along_true (is : List ι) (s : σ) : Along next (fun _ _ => True) is s := by
  induction is generalizing s with
  | nil => trivial
  | cons i is ih => exact ⟨trivial,fun s' _ => ih s'⟩

theorem along_inputs {step : σ → ι → σ} {C : ι → Prop} (is : List ι) (s : σ) :
    Along (fun s i s' => step s i = s') (fun _ i => C i) is s ↔ ∀ i ∈ is, C i := by
  induction is generalizing s with
  | nil => exact iff_of_true trivial nofun
  | cons i is ih =>
    rw [Along,List.forall_mem_cons]
    exact and_congr_right fun _ => ⟨fun h => (ih _).mp (h _ rfl),fun h _ hs => hs ▸ (ih _).mpr h⟩

/-- The states reached from `s` by steps that all meet the condition. -/
inductive Reach (next : σ → ι → σ → Prop) (P : σ → ι → Prop) (s : σ) : σ → Prop
  | start : Reach next P s s
  | step {t u : σ} {i : ι} (h : Reach next P s t) (hp : P t i) (hn : next t i u) : Reach next P s u

theorem Reach.inv {t : σ} (hstep : ∀ t i u, I t → P t i → next t i u → I u) (hs : I s) (h : Reach next P s t) : I t := by
  induction h with
  | start => exact hs
  | step _ hp hn ih => exact hstep _ _ _ ih hp hn

end Catlib
