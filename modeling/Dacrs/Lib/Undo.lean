import Dacrs.Lib.Outcome

/-!
# Undoing a run from its records

A run of steps leaves one record per step.  If undoing each record turns the state after
its step back into the state before it, undoing all records in reverse order turns the
last state back into the first (`Trail.undoAll`).  Nothing is said about how a record
undoes its step, and steps may undo only on the states that actually occur.
-/

namespace Undo

variable {σ ρ ε : Type}

/-- `Trail undo s rs t`: a run from `s` to `t` left the records `rs`, oldest first, and each
of them undoes its own step. -/
inductive Trail (undo : σ → ρ → Except ε σ) (s : σ) : List ρ → σ → Prop where
  | nil : Trail undo s [] s
  | snoc {t u : σ} {rs : List ρ} (r : ρ) (h : Trail undo s rs t) (hr : undo u r = .ok t) :
      Trail undo s (rs ++ [r]) u

variable {undo : σ → ρ → Except ε σ}

theorem Trail.single {s t : σ} {r : ρ} (h : undo t r = .ok s) : Trail undo s [r] t :=
  Trail.snoc r Trail.nil h

theorem Trail.append {s t u : σ} {rs qs : List ρ} (h₁ : Trail undo s rs t)
    (h₂ : Trail undo t qs u) : Trail undo s (rs ++ qs) u := by
  induction h₂ with
  | nil => rwa [List.append_nil]
  | snoc r _ hr ih =>
    rw [← List.append_assoc]
    exact ih.snoc r hr

/-- Reverse order undoes the run. -/
theorem Trail.undoAll {s t : σ} {rs : List ρ} (h : Trail undo s rs t) :
    rs.reverse.foldlM undo t = .ok s := by
  induction h with
  | nil => rfl
  | snoc r _ hr ih =>
    rw [List.reverse_append, List.reverse_singleton, List.singleton_append, List.foldlM_cons, hr]
    exact ih

/-- A change of state that every undo of the run passes through. -/
theorem Trail.map (g : σ → σ) {s t : σ} {rs : List ρ} (h : Trail undo s rs t)
    (hcomm : ∀ r ∈ rs, ∀ t s, undo t r = .ok s → undo (g t) r = .ok (g s)) :
    Trail undo (g s) rs (g t) := by
  induction h with
  | nil => exact .nil
  | snoc r _ hr ih =>
    have hlast := hcomm r (List.mem_append_right _ (List.mem_singleton.mpr rfl))
    exact (ih fun r' hr' => hcomm r' (List.mem_append_left _ hr')).snoc r (hlast _ _ hr)

/-- The same run under an undo that gives the same results. -/
theorem Trail.congr {undo' : σ → ρ → Except ε σ} {s t : σ} {rs : List ρ} (h : Trail undo s rs t)
    (heq : ∀ t r s, undo t r = .ok s → undo' t r = .ok s) : Trail undo' s rs t := by
  induction h with
  | nil => exact .nil
  | snoc r _ hr ih => exact ih.snoc r (heq _ _ _ hr)

end Undo
