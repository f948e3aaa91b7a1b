import Mathlib.Data.Int.Order.Basic
import Mathlib.Tactic.Linarith

/-!
# Machines that run until they stop

A machine takes one turn after the other until a turn stops it with a result or an exit.  `Runs` is a
run that stops, with the number of its turns.  A machine halts within its budget when each turn that
goes on raises a meter which every turn that goes on leaves below the budget.
-/

namespace Machine

variable {σ ρ ε : Type}

/-- A turn goes on in a new state, or stops with a result; an exit stops it too. -/
abbrev Turn (σ ρ ε : Type) := σ → Except ε (σ ⊕ ρ)

/-- The states the machine goes through. -/
inductive Reach (turn : Turn σ ρ ε) (s : σ) : σ → Prop
  | start : Reach turn s s
  | next {t u : σ} (h : Reach turn s t) (ht : turn t = .ok (.inl u)) : Reach turn s u

/-- A run of so many turns, the last of which stops. -/
inductive Runs (turn : Turn σ ρ ε) : σ → ℕ → Except ε ρ → Prop
  | result {s : σ} {r : ρ} (h : turn s = .ok (.inr r)) : Runs turn s 1 (.ok r)
  | exit {s : σ} {e : ε} (h : turn s = .error e) : Runs turn s 1 (.error e)
  | next {s t : σ} {n : ℕ} {r : Except ε ρ} (h : turn s = .ok (.inl t)) (ht : Runs turn t n r) :
      Runs turn s (n + 1) r

/-- Some run stops. -/
def Halts (turn : Turn σ ρ ε) (s : σ) : Prop := ∃ n r, Runs turn s n r

variable {turn : Turn σ ρ ε}

theorem Runs.pos {s : σ} {n : ℕ} {r : Except ε ρ} (h : Runs turn s n r) : 0 < n := by
  cases h with
  | result _ => omega
  | exit _ => omega
  | next _ _ => omega

/-- What a turn can reach, the machine that took it can reach. -/
theorem Reach.of_turn {s t u : σ} (h : turn s = .ok (.inl t)) (ht : Reach turn t u) : Reach turn s u := by
  induction ht with
  | start => exact .next .start h
  | next _ hv ih => exact .next ih hv

/-- A machine stops with an exit where it goes through a state whose turn is that exit. -/
theorem runs_exit_iff {s : σ} {e : ε} :
    (∃ n, Runs turn s n (.error e)) ↔ ∃ t, Reach turn s t ∧ turn t = .error e := by
  constructor
  · rintro ⟨n, hrun⟩
    generalize hres : (Except.error e : Except ε ρ) = res at hrun
    induction hrun with
    | result h => cases hres
    | exit h =>
      cases hres
      exact ⟨_, .start, h⟩
    | next h _ ih =>
      obtain ⟨t, ht, he⟩ := ih hres
      exact ⟨t, ht.of_turn h, he⟩
  · rintro ⟨t, ht, he⟩
    have hback : ∀ n, Runs turn t n (.error e) → ∃ m, Runs turn s m (.error e) := by
      clear he
      induction ht with
      | start => exact fun n hn => ⟨n, hn⟩
      | next _ hturn ih => exact fun n hn => ih (n + 1) (.next hturn hn)
    exact hback 1 (.exit he)

/-- What holds at the start and is kept by every turn that goes on holds of all it goes through. -/
theorem Reach.invariant {P : σ → Prop} {s t : σ} (h0 : P s)
    (hstep : ∀ a b, P a → turn a = .ok (.inl b) → P b) (h : Reach turn s t) : P t := by
  induction h with
  | start => exact h0
  | next _ ht ih => exact hstep _ _ ih ht

/-- A machine that always goes on never halts. -/
theorem not_halts_of_invariant {P : σ → Prop} {s : σ} (h0 : P s)
    (hstep : ∀ a, P a → ∃ b, turn a = .ok (.inl b) ∧ P b) : ¬ Halts turn s := by
  rintro ⟨n, r, hrun⟩
  induction hrun with
  | result h =>
    obtain ⟨b, hb, -⟩ := hstep _ h0
    cases h.symm.trans hb
  | exit h =>
    obtain ⟨b, hb, -⟩ := hstep _ h0
    cases h.symm.trans hb
  | next h _ ih =>
    obtain ⟨b, hb, hP⟩ := hstep _ h0
    rw [h] at hb
    cases hb
    exact ih hP

/-- The meter goes up with every turn that goes on, and stays below the budget. -/
def Metered (turn : Turn σ ρ ε) (meter : σ → ℤ) (budget : ℤ) (s : σ) : Prop :=
  ∀ t u, Reach turn s t → turn t = .ok (.inl u) → meter t + 1 ≤ meter u ∧ meter u < budget

theorem Metered.of_turn {meter : σ → ℤ} {budget : ℤ} {s t : σ} (h : Metered turn meter budget s)
    (ht : turn s = .ok (.inl t)) : Metered turn meter budget t :=
  fun a b ha hb => h a b (ha.of_turn ht) hb

/-- A metered machine halts, within as many turns as its budget still allows. -/
theorem Metered.halts {meter : σ → ℤ} {budget : ℤ} {s : σ} (h : Metered turn meter budget s)
    (hs : meter s < budget) : ∃ n r, Runs turn s n r ∧ meter s + n ≤ budget := by
  -- by induction on what is left of the budget
  obtain ⟨k, hk⟩ : ∃ k : ℕ, budget - meter s = k := ⟨(budget - meter s).toNat, by omega⟩
  induction k using Nat.strong_induction_on generalizing s with
  | _ k ih =>
    cases hturn : turn s with
    | error e => exact ⟨1, .error e, .exit hturn, by push_cast; omega⟩
    | ok out =>
      cases out with
      | inr r => exact ⟨1, .ok r, .result hturn, by push_cast; omega⟩
      | inl t =>
        obtain ⟨hup, hlt⟩ := h s t .start hturn
        obtain ⟨n, r, hrun, hle⟩ := ih (budget - meter t).toNat (by omega) (h.of_turn hturn) hlt (by omega)
        exact ⟨n + 1, r, .next hturn hrun, by push_cast; omega⟩

/-- What a run of a metered machine stops with comes from a state whose meter has seen all its turns. -/
theorem Metered.last {meter : σ → ℤ} {budget : ℤ} {s : σ} (h : Metered turn meter budget s) {n : ℕ}
    {r : ρ} (hrun : Runs turn s n (.ok r)) (hs : meter s < budget) :
    ∃ t, Reach turn s t ∧ turn t = .ok (.inr r) ∧ meter s + n ≤ meter t + 1 ∧ meter t < budget := by
  generalize hres : (Except.ok r : Except ε ρ) = res at hrun
  induction hrun with
  | result hturn =>
    obtain rfl := Except.ok.inj hres
    exact ⟨_, .start, hturn, by push_cast; omega, hs⟩
  | exit hturn => cases hres
  | next hturn _ ih =>
    obtain ⟨hup, hlt⟩ := h _ _ .start hturn
    obtain ⟨u, hreach, hu, hle, hbudget⟩ := ih (h.of_turn hturn) hlt hres
    exact ⟨u, hreach.of_turn hturn, hu, by push_cast at *; omega, hbudget⟩

/-! ## Evaluation -/

/-- The result, if the machine stops within so many turns. -/
def runFor (turn : Turn σ ρ ε) : ℕ → σ → Option (Except ε ρ)
  | 0, _ => none
  | n + 1, s => match turn s with
    | .error e => some (.error e)
    | .ok (.inr r) => some (.ok r)
    | .ok (.inl t) => runFor turn n t

theorem runs_of_runFor {n : ℕ} {s : σ} {r : Except ε ρ} (h : runFor turn n s = some r) :
    ∃ m, Runs turn s m r := by
  induction n generalizing s with
  | zero => cases h
  | succ n ih =>
    unfold runFor at h
    split at h
    · next e hturn =>
      cases h
      exact ⟨1, .exit hturn⟩
    · next out hturn =>
      cases h
      exact ⟨1, .result hturn⟩
    · next t hturn =>
      obtain ⟨m, hm⟩ := ih h
      exact ⟨m + 1, .next hturn hm⟩

/-- The machine stops within so many turns, and what it goes through passes a test. -/
def passes (turn : Turn σ ρ ε) (test : σ → Bool) : ℕ → σ → Bool
  | 0, _ => false
  | n + 1, s => test s && match turn s with
    | .ok (.inl t) => passes turn test n t
    | _ => true

theorem passes_of_reach {test : σ → Bool} {n : ℕ} {s t : σ} (h : passes turn test n s = true)
    (ht : Reach turn s t) : test t = true := by
  obtain ⟨m, hm⟩ : ∃ m, passes turn test m t = true := by
    induction ht with
    | start => exact ⟨n, h⟩
    | next _ hturn ih =>
      obtain ⟨m, hm⟩ := ih
      cases m with
      | zero => cases hm
      | succ m =>
        unfold passes at hm
        rw [hturn, Bool.and_eq_true] at hm
        exact ⟨m, hm.2⟩
  cases m with
  | zero => cases hm
  | succ m =>
    unfold passes at hm
    rw [Bool.and_eq_true] at hm
    exact hm.1

end Machine
