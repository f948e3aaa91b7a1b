import Mathlib.Data.Finmap
import Mathlib.Algebra.BigOperators.Group.Multiset.Basic
import Mathlib.Tactic

/-!
# Flat stores

A finite map with one update operation, `put k o`, which writes `some v` or removes
the key.  Two stores are equal when they answer every lookup alike, so `put` is
determined by `lookup_put`.  `total f` sums a measure of the values; `total_put` says
how one update moves it.
-/

/-- A finite map from `κ` to `ν`. -/
abbrev Store (κ ν : Type) := Finmap fun _ : κ => ν

namespace Store

variable {κ ν : Type} [DecidableEq κ]

/-- Write a value, or remove the key. -/
def put (m : Store κ ν) (k : κ) : Option ν → Store κ ν
  | some v => Finmap.insert k v m
  | none => Finmap.erase k m

theorem lookup_put (m : Store κ ν) (k j : κ) (o : Option ν) :
    (put m k o).lookup j = if j = k then o else m.lookup j := by
  by_cases h : j = k
  · subst h
    cases o with
    | none => simp [put]
    | some v => simp [put]
  · cases o with
    | none => simp [put, h]
    | some v => simp [put, h, Finmap.lookup_insert_of_ne]

/-- Nothing is stored in the empty store. -/
theorem of_lookup_empty {k : κ} {v : ν} {P : Prop} (h : (∅ : Store κ ν).lookup k = some v) : P := by
  rw [Finmap.lookup_empty] at h
  cases h

@[simp] theorem lookup_put_self (m : Store κ ν) (k : κ) (o : Option ν) :
    (put m k o).lookup k = o := by
  rw [lookup_put, if_pos rfl]

theorem lookup_put_ne (m : Store κ ν) {k j : κ} (o : Option ν) (h : j ≠ k) :
    (put m k o).lookup j = m.lookup j := by
  rw [lookup_put, if_neg h]

/-- Putting back what was there changes nothing. -/
@[simp] theorem put_lookup (m : Store κ ν) (k : κ) : put m k (m.lookup k) = m := by
  refine Finmap.ext_lookup fun j => ?_
  rw [lookup_put]
  split
  · next h => rw [h]
  · rfl

@[simp] theorem put_put (m : Store κ ν) (k : κ) (o p : Option ν) :
    put (put m k o) k p = put m k p := by
  refine Finmap.ext_lookup fun j => ?_
  simp only [lookup_put]
  split <;> rfl

theorem put_comm (m : Store κ ν) {k j : κ} (o p : Option ν) (h : j ≠ k) :
    put (put m k o) j p = put (put m j p) k o := by
  refine Finmap.ext_lookup fun i => ?_
  simp only [lookup_put]
  by_cases hi : i = j
  · subst hi
    simp [h]
  · simp [hi]

theorem put_eq_self_iff (m : Store κ ν) (k : κ) (o : Option ν) : put m k o = m ↔ o = m.lookup k := by
  constructor
  · intro h
    rw [← h, lookup_put_self]
  · rintro rfl
    exact put_lookup m k

/-- Two writes that together change nothing. -/
theorem put_put_eq_self_iff (m : Store κ ν) (j k : κ) (o p : Option ν) :
    put (put m j o) k p = m ↔ m.lookup k = p ∧ (k = j ∨ m.lookup j = o) := by
  constructor
  · intro h
    have hk := lookup_put (put m j o) k k p
    have hj := lookup_put (put m j o) k j p
    rw [h, if_pos rfl] at hk
    refine ⟨hk, ?_⟩
    by_cases hjk : k = j
    · exact .inl hjk
    · rw [h, if_neg (Ne.symm hjk), lookup_put_self] at hj
      exact .inr hj
  · rintro ⟨rfl, rfl | rfl⟩
    · rw [put_put, put_lookup]
    · rw [put_lookup, put_lookup]

/-- An update under another one and again under it. -/
theorem put_put_put_put (m : Store κ ν) (j k : κ) (o p o' p' : Option ν) :
    put (put (put (put m j o) k p) j o') k p' = put (put m j o') k p' := by
  refine Finmap.ext_lookup fun i => ?_
  simp only [lookup_put]
  split
  · rfl
  · split <;> rfl

/-! ## Totals -/

/-- The sum of `f` over all values. -/
def total (f : ν → Nat) (m : Store κ ν) : Nat := (m.entries.map fun e => f e.2).sum

/-- What a lookup contributes. -/
def measure (f : ν → Nat) (o : Option ν) : Nat := (o.map f).getD 0

omit [DecidableEq κ] in
@[simp] theorem measure_none (f : ν → Nat) : measure f none = 0 := rfl

omit [DecidableEq κ] in
@[simp] theorem measure_some (f : ν → Nat) (v : ν) : measure f (some v) = f v := rfl

theorem total_insert_of_notMem (f : ν → Nat) (m : Store κ ν) (k : κ) (v : ν) (h : k ∉ m) :
    total f (Finmap.insert k v m) = f v + total f m := by
  rw [total, total, Finmap.entries_insert_of_notMem h, Multiset.map_cons, Multiset.sum_cons]

theorem total_erase (f : ν → Nat) (m : Store κ ν) (k : κ) :
    total f (Finmap.erase k m) + measure f (m.lookup k) = total f m := by
  cases hk : m.lookup k with
  | none =>
    have he : Finmap.erase k m = m := by
      have hp := put_lookup m k
      rwa [hk] at hp
    rw [he, measure_none, Nat.add_zero]
  | some v =>
    have hm : Finmap.insert k v (Finmap.erase k m) = m := by
      have hp := put_put m k none (some v)
      rw [← hk, put_lookup, hk] at hp
      exact hp
    have ht := total_insert_of_notMem f (Finmap.erase k m) k v Finmap.notMem_erase_self
    rw [hm] at ht
    rw [measure_some]
    omega

/-- One update takes the old contribution out and puts the new one in. -/
theorem total_put (f : ν → Nat) (m : Store κ ν) (k : κ) (o : Option ν) :
    total f (put m k o) + measure f (m.lookup k) = total f m + measure f o := by
  have he := total_erase f m k
  cases o with
  | none =>
    rw [measure_none, Nat.add_zero]
    exact he
  | some v =>
    have hins := total_insert_of_notMem f (Finmap.erase k m) k v Finmap.notMem_erase_self
    have hput : Finmap.insert k v (Finmap.erase k m) = Finmap.insert k v m :=
      put_put m k none (some v)
    rw [hput] at hins
    show total f (Finmap.insert k v m) + _ = _
    rw [measure_some]
    omega

/-- Every value is part of the total. -/
theorem measure_le_total (f : ν → Nat) (m : Store κ ν) (k : κ) :
    measure f (m.lookup k) ≤ total f m := by
  have h := total_erase f m k
  omega

end Store
