import Mathlib.Data.List.Basic

/-!
# Admitting items one after the other

A list of items is taken in order, each one executed on the state that the admitted ones before it
led to; what does not execute is dropped.  What is kept executes as a whole (`runAll_admitted`), a second
pass drops nothing (`admitted_admitted`), and an item that is put in the middle of a list that executes
leads to the same state exactly if it may as well go behind the rest (`runAll_insert_iff`).

An execution may leave a mark on the item it executes.
-/

namespace Admission

variable {σ ε κ : Type}

/-- The state after all items, if each one is admitted. -/
def runAll (exec : σ → ε → Option (σ × ε)) : σ → List ε → Option σ
  | s, [] => some s
  | s, e :: l => match exec s e with
    | none => none
    | some (t, _) => runAll exec t l

/-- The items that are admitted, and the state after them. -/
def admitted (exec : σ → ε → Option (σ × ε)) : σ → List ε → List ε × σ
  | s, [] => ([], s)
  | s, e :: l => match exec s e with
    | none => admitted exec s l
    | some (t, e') => (e' :: (admitted exec t l).1, (admitted exec t l).2)

variable {exec : σ → ε → Option (σ × ε)} {s t : σ} {l m : List ε} {e e' : ε}

theorem runAll_cons_of_some (h : exec s e = some (t, e')) : runAll exec s (e :: l) = runAll exec t l := by
  conv => lhs; unfold runAll
  rw [h]

theorem runAll_cons_of_none (h : exec s e = none) : runAll exec s (e :: l) = none := by
  conv => lhs; unfold runAll
  rw [h]

theorem admitted_cons_of_some (h : exec s e = some (t, e')) :
    admitted exec s (e :: l) = (e' :: (admitted exec t l).1, (admitted exec t l).2) := by
  conv => lhs; unfold admitted
  rw [h]

theorem admitted_cons_of_none (h : exec s e = none) : admitted exec s (e :: l) = admitted exec s l := by
  conv => lhs; unfold admitted
  rw [h]

theorem runAll_append (s : σ) (l m : List ε) :
    runAll exec s (l ++ m) = (runAll exec s l).bind fun t => runAll exec t m := by
  induction l generalizing s with
  | nil => rfl
  | cons e l ih =>
    rw [List.cons_append]
    cases he : exec s e with
    | none => rw [runAll_cons_of_none he, runAll_cons_of_none he, Option.bind_none]
    | some r => rw [runAll_cons_of_some he, runAll_cons_of_some he, ih]

/-! ## Marks -/

/-- An item with its mark executes as it did when the mark was left. -/
def Settles (exec : σ → ε → Option (σ × ε)) : Prop :=
  ∀ s e t e', exec s e = some (t, e') → exec s e' = some (t, e')

/-- A mark does not change what an item is. -/
def Keeps (exec : σ → ε → Option (σ × ε)) (key : ε → κ) : Prop :=
  ∀ s e t e', exec s e = some (t, e') → key e' = key e

/-- What is kept executes in its order. -/
theorem runAll_admitted (hsettles : Settles exec) (s : σ) (l : List ε) :
    runAll exec s (admitted exec s l).1 = some (admitted exec s l).2 := by
  induction l generalizing s with
  | nil => rfl
  | cons e l ih =>
    cases he : exec s e with
    | none =>
      rw [admitted_cons_of_none he]
      exact ih s
    | some r =>
      rw [admitted_cons_of_some he, runAll_cons_of_some (hsettles s e r.1 r.2 he)]
      exact ih r.1

/-- A second pass finds nothing to drop and nothing to mark. -/
theorem admitted_admitted (hsettles : Settles exec) (s : σ) (l : List ε) :
    admitted exec s (admitted exec s l).1 = admitted exec s l := by
  induction l generalizing s with
  | nil => rfl
  | cons e l ih =>
    cases he : exec s e with
    | none =>
      rw [admitted_cons_of_none he]
      exact ih s
    | some r => rw [admitted_cons_of_some he, admitted_cons_of_some (hsettles s e r.1 r.2 he), ih]

/-- Of items that all execute none is dropped. -/
theorem admitted_of_runAll {key : ε → κ} (hkeeps : Keeps exec key) (h : runAll exec s l = some t) :
    (admitted exec s l).2 = t ∧ (admitted exec s l).1.map key = l.map key := by
  induction l generalizing s with
  | nil => exact ⟨Option.some.inj h, rfl⟩
  | cons e l ih =>
    cases he : exec s e with
    | none =>
      rw [runAll_cons_of_none he] at h
      cases h
    | some r =>
      rw [runAll_cons_of_some he] at h
      obtain ⟨hstate, hkeys⟩ := ih h
      rw [admitted_cons_of_some he]
      refine ⟨hstate, ?_⟩
      rw [List.map_cons, List.map_cons, hkeys, hkeeps s e r.1 r.2 he]

/-- Nothing is added and nothing moved. -/
theorem admitted_sublist {key : ε → κ} (hkeeps : Keeps exec key) (s : σ) (l : List ε) :
    ((admitted exec s l).1.map key).Sublist (l.map key) := by
  induction l generalizing s with
  | nil => exact List.Sublist.slnil
  | cons e l ih =>
    cases he : exec s e with
    | none =>
      rw [admitted_cons_of_none he]
      exact (ih s).cons _
    | some r =>
      rw [admitted_cons_of_some he, List.map_cons, List.map_cons, hkeeps s e r.1 r.2 he]
      exact (ih r.1).cons_cons _

/-- Each item of a list that executes was admitted on some state. -/
theorem exists_exec_of_runAll (h : runAll exec s l = some t) (he : e ∈ l) :
    ∃ u r, exec u e = some r := by
  induction l generalizing s with
  | nil => cases he
  | cons d l ih =>
    cases hd : exec s d with
    | none =>
      rw [runAll_cons_of_none hd] at h
      cases h
    | some r =>
      rw [runAll_cons_of_some hd] at h
      rcases List.mem_cons.mp he with rfl | he
      · exact ⟨s, r, hd⟩
      · exact ih h he

/-! ## One more item -/

/-- A list that executes takes an item in its middle to the state that the item leads to behind it
exactly if it is all one there whether the item comes before the rest or after. -/
theorem runAll_insert_iff {u : σ} (hrun : runAll exec s (l ++ m) = some t)
    (he : exec t e = some (u, e')) : runAll exec s (l ++ e :: m) = some u ↔
      ∀ b, runAll exec s l = some b → runAll exec b (e :: m) = runAll exec b (m ++ [e]) := by
  rw [runAll_append] at hrun
  cases hb : runAll exec s l with
  | none =>
    rw [hb] at hrun
    cases hrun
  | some b =>
    rw [hb, Option.bind_some] at hrun
    have hlast : runAll exec b (m ++ [e]) = some u := by
      rw [runAll_append, hrun, Option.bind_some, runAll_cons_of_some he]
      rfl
    rw [runAll_append, hb, Option.bind_some]
    constructor
    · intro h c hc
      rw [← Option.some.inj hc, h, hlast]
    · intro h
      rw [h b rfl, hlast]

end Admission
