import Mathlib.Logic.Basic

/-!
# Systems that are called

A system takes one call after the other, in any order.  `ReachedIf` are the states of the runs in which
every call meets a condition on the state it is made in.
-/

namespace Calls

variable {σ ι : Type}

inductive ReachedIf (Step : σ → ι → σ → Prop) (Meets : σ → ι → Prop) (s : σ) : σ → Prop
  | start : ReachedIf Step Meets s s
  | call {t u : σ} {i : ι} (reached : ReachedIf Step Meets s t) (meets : Meets t i) (step : Step t i u) :
      ReachedIf Step Meets s u

/-- All states of all runs. -/
abbrev Reached (Step : σ → ι → σ → Prop) (s t : σ) : Prop := ReachedIf Step (fun _ _ => True) s t

variable {Step : σ → ι → σ → Prop} {Meets : σ → ι → Prop} {P : σ → Prop} {s t : σ}

/-- What holds at the start and is kept by every call that meets the condition holds of all states. -/
theorem ReachedIf.invariant (h0 : P s) (hstep : ∀ t i u, P t → Meets t i → Step t i u → P u)
    (h : ReachedIf Step Meets s t) : P t := by
  induction h with
  | start => exact h0
  | call _ meets step ih => exact hstep _ _ _ ih meets step

/-- A weaker condition lets more runs through. -/
theorem ReachedIf.mono {Meets' : σ → ι → Prop} (hm : ∀ t i, Meets t i → Meets' t i)
    (h : ReachedIf Step Meets s t) : ReachedIf Step Meets' s t := by
  induction h with
  | start => exact .start
  | call _ meets step ih => exact .call ih (hm _ _ meets) step

end Calls
