import Dacrs.Lib.Store

/-!
# Exact movements of balances

`Moves f m ms m'` says that the store `m'` came from `m` by single writes, and that `ms` lists
what each write added to the measure `f` of its key as an exact integer.  However the amounts
are computed, a run of exact movements neither mints nor burns: `Moves.total` gives the new
total, and `Moves.balance` the new measure of every single key.
-/

namespace Store

variable {κ ν : Type} [DecidableEq κ]

/-- A run of writes.  `touch` is a write that leaves the measure of its key alone. -/
inductive Moves (f : ν → ℕ) (m : Store κ ν) : List (κ × ℤ) → Store κ ν → Prop where
  | nil : Moves f m [] m
  | touch {ms : List (κ × ℤ)} {m' : Store κ ν} (k : κ) (o : Option ν) (h : Moves f m ms m')
      (hsame : measure f o = measure f (m'.lookup k)) : Moves f m ms (put m' k o)
  | move {ms : List (κ × ℤ)} {m' : Store κ ν} (k : κ) (o : Option ν) (d : ℤ)
      (h : Moves f m ms m') (hexact : (measure f o : ℤ) = measure f (m'.lookup k) + d) :
      Moves f m (ms ++ [(k, d)]) (put m' k o)

variable {f : ν → ℕ} {m m' m'' : Store κ ν} {ms ms' : List (κ × ℤ)}

theorem Moves.append (h : Moves f m ms m') (h' : Moves f m' ms' m'') :
    Moves f m (ms ++ ms') m'' := by
  induction h' with
  | nil => rwa [List.append_nil]
  | touch k o _ hsame ih => exact ih.touch k o hsame
  | move k o d _ hexact ih =>
    rw [← List.append_assoc]
    exact ih.move k o d hexact

/-- One recorded write. -/
theorem Moves.single (k : κ) (o : Option ν) (d : ℤ)
    (hexact : (measure f o : ℤ) = measure f (m.lookup k) + d) : Moves f m [(k, d)] (put m k o) :=
  Moves.nil.move k o d hexact

/-- The total moves by the sum of the movements. -/
theorem Moves.total (h : Moves f m ms m') :
    (Store.total f m' : ℤ) = Store.total f m + (ms.map Prod.snd).sum := by
  induction h with
  | nil => simp
  | @touch _ m₁ k o _ hsame ih =>
    have hput := total_put f m₁ k o
    rw [← ih]
    omega
  | @move _ m₁ k o d _ hexact ih =>
    have hput := total_put f m₁ k o
    simp only [List.map_append, List.map_cons, List.map_nil, List.sum_append, List.sum_cons,
      List.sum_nil]
    omega

/-- Every measure moves by the movements of its key. -/
theorem Moves.balance (h : Moves f m ms m') (k : κ) :
    (measure f (m'.lookup k) : ℤ)
      = measure f (m.lookup k) + ((ms.filter (·.1 == k)).map Prod.snd).sum := by
  induction h with
  | nil => simp
  | touch j o _ hsame ih =>
    rw [lookup_put]
    split
    · next hk =>
      subst hk
      rw [hsame, ih]
    · exact ih
  | move j o d _ hexact ih =>
    rw [lookup_put, List.filter_append, List.map_append, List.sum_append]
    split
    · next hk =>
      subst hk
      rw [hexact, ih]
      simp [add_assoc]
    · next hk =>
      have hkj : (j == k) = false := beq_false_of_ne (Ne.symm hk)
      rw [ih]
      simp [hkj]

/-! ## A store over another -/

/-- The upper store answers first. -/
theorem lookup_union (m n : Store κ ν) (k : κ) : (m ∪ n).lookup k = (m.lookup k).or (n.lookup k) := by
  by_cases hk : k ∈ m
  · rw [Finmap.lookup_union_left hk]
    obtain ⟨v, hv⟩ := Finmap.mem_iff.mp hk
    rw [hv]
    rfl
  · rw [Finmap.lookup_union_right hk, Finmap.lookup_eq_none.mpr hk]
    rfl

/-- A write to the upper store is a write to both together. -/
theorem put_union (m n : Store κ ν) (k : κ) (v : ν) :
    put m k (some v) ∪ n = put (m ∪ n) k (some v) := Finmap.insert_union.symm

end Store
