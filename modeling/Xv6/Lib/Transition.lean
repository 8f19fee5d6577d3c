import Mathlib.Tactic

/-!
Transition systems. `Reachable init step s` says that a run from an initial state leads
to `s`; what holds initially and is kept by every step holds of every reachable state.
A system whose steps are computed can be run on a list of choices.
-/

namespace Transition
variable {σ α : Type} {init : σ → Prop} {step : σ → α → σ → Prop} {P : σ → Prop}

inductive Reachable (init : σ → Prop) (step : σ → α → σ → Prop) : σ → Prop
  | start (s : σ) (h : init s) : Reachable init step s
  | next (s t : σ) (a : α) (hr : Reachable init step s) (h : step s a t) : Reachable init step t

theorem Reachable.invariant (hi : ∀ s, init s → P s)
    (hs : ∀ s a t, P s → step s a t → P t) {s : σ} (h : Reachable init step s) : P s := by
  induction h with
  | start s h => exact hi s h
  | next s t a _ h ih => exact hs s a t ih h

/-- The steps for a list of choices, one after the other. -/
def exec (f : σ → α → Option σ) (s : σ) : List α → Option σ
  | [] => some s
  | a :: as => (f s a).bind fun s => exec f s as

theorem Reachable.exec {f : σ → α → Option σ} (hf : ∀ s a t, f s a = some t → step s a t)
    {s t : σ} {as : List α} (h : Reachable init step s) (ht : exec f s as = some t) :
    Reachable init step t := by
  induction as generalizing s with
  | nil =>
    cases ht
    exact h
  | cons a as ih =>
    obtain ⟨s₁, hs, ht⟩ := Option.bind_eq_some_iff.1 ht
    exact ih (.next s s₁ a h (hf s a s₁ hs)) ht

end Transition
