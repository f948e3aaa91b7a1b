import Mathlib.Data.List.AList
import Mathlib.Tactic

/-!
# Overlays with removal marks

A stack of levels over a base map.  A level says nothing of a key, or gives it a value, or marks
it as removed; the first level from the top that says something decides (`resolve`).  A level may
keep a copy of what the levels below resolve to without changing any answer (`resolve_copy`), and
two neighbouring levels may be merged into one (`resolve_merge`).

`foldl_keyed` is about a loop over the entries of a finite map in which every turn changes only
what is observed at its own key.
-/

namespace Overlay

variable {κ ν : Type}

/-- What a level says of each key. -/
abbrev Level (κ ν : Type) := κ → Option (Option ν)

/-- The first level that says something, else the base. -/
def resolve (base : κ → Option ν) : List (Level κ ν) → κ → Option ν
  | [], k => base k
  | l :: ls, k => (l k).getD (resolve base ls k)

variable {base base' : κ → Option ν} {l l' p : Level κ ν} {ls ls' : List (Level κ ν)} {k : κ}

theorem resolve_cons_of_some {o : Option ν} (h : l k = some o) : resolve base (l :: ls) k = o := by
  rw [resolve, h]
  rfl

theorem resolve_cons_of_none (h : l k = none) :
    resolve base (l :: ls) k = resolve base ls k := by
  rw [resolve, h]
  rfl

/-- Only what lies below matters where a level is silent. -/
theorem resolve_cons_congr (hl : l k = l' k)
    (hbelow : l k = none → resolve base ls k = resolve base' ls' k) :
    resolve base (l :: ls) k = resolve base' (l' :: ls') k := by
  rw [resolve, resolve, ← hl]
  cases h : l k with
  | none => exact hbelow h
  | some o => rfl

/-- `l'` says what `l` says, or repeats what the levels below say. -/
def CopiesOf (l l' : Level κ ν) (below : κ → Option ν) : Prop :=
  ∀ k, l' k = l k ∨ (l k = none ∧ l' k = some (below k))

/-- A copy of an answer from below is not noticed. -/
theorem resolve_copy (hcopy : CopiesOf l l' (resolve base ls))
    (hbelow : ∀ k, resolve base' ls' k = resolve base ls k) (k : κ) :
    resolve base' (l' :: ls') k = resolve base (l :: ls) k := by
  rcases hcopy k with h | ⟨hnone, hsome⟩
  · exact resolve_cons_congr h fun _ => hbelow k
  · rw [resolve_cons_of_some hsome, resolve_cons_of_none hnone]

/-- The upper of two levels, with the lower one where it is silent. -/
def merge (l p : Level κ ν) : Level κ ν := fun k => (l k).or (p k)

theorem resolve_merge : resolve base (merge l p :: ls) k = resolve base (l :: p :: ls) k := by
  simp only [resolve, merge]
  cases l k with
  | none => rfl
  | some o => rfl

/-! ## Loops over a finite map -/

/-- What no turn changes, the loop leaves as it was. -/
theorem foldl_unchanged {σ ω ε : Type} (step : σ → ε → σ) (obs : σ → ω)
    (hstep : ∀ s e, obs (step s e) = obs s) (l : List ε) (s : σ) : obs (l.foldl step s) = obs s := by
  induction l generalizing s with
  | nil => rfl
  | cons e l ih => rw [List.foldl_cons, ih, hstep]

/-- Each turn changes only what is observed at its own key: the whole loop changes every
observation by the entry of its key, whatever the order of the entries. -/
theorem foldl_keyed {σ ω : Type} [DecidableEq κ] (step : σ → (Σ _ : κ, ν) → σ) (obs : σ → κ → ω)
    (upd : κ → ν → ω → ω)
    (hstep : ∀ s e j, obs (step s e) j = if j = e.1 then upd e.1 e.2 (obs s j) else obs s j)
    (m : AList fun _ : κ => ν) (s : σ) (j : κ) :
    obs (m.entries.foldl step s) j
      = match m.lookup j with
        | some v => upd j v (obs s j)
        | none => obs s j := by
  have hlist : ∀ (l : List (Σ _ : κ, ν)) (s : σ), l.NodupKeys →
      obs (l.foldl step s) j
        = match l.dlookup j with
          | some v => upd j v (obs s j)
          | none => obs s j := by
    intro l
    induction l with
    | nil =>
      intro s _
      rfl
    | cons e l ih =>
      intro s hnd
      rw [List.nodupKeys_cons] at hnd
      rw [List.foldl_cons, ih _ hnd.2]
      by_cases hj : j = e.1
      · subst hj
        have hnone : l.dlookup e.1 = none := List.dlookup_eq_none.mpr hnd.1
        rw [hnone, List.dlookup_cons_eq, hstep, if_pos rfl]
      · rw [List.dlookup_cons_ne _ _ hj]
        simp only [hstep, if_neg hj]
  exact hlist m.entries s m.nodupKeys

end Overlay
