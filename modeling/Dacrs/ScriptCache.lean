import Dacrs.Lib.Overlay
import Dacrs.ScriptView

/-!
# The script caches, level by level

The objects behind a script view: `CScriptDBViewCache`s one over the other and `CScriptDB` at the
bottom.  A cached empty value marks a removed key, and a read leaves copies of what it found in
the caches it went through.  What a stack answers never changes below the cache that is called
(`below_sameAnswers`).

As with the account caches, the database has the type of the flat view of the module ScriptView.
-/

open Codec (Bytes)

namespace Dacrs

open CScriptDBViewCache (liveValue liveValue_ne liveValue_of_ne)

abbrev CScriptDB := CScriptDBViewCache

/-- `m_mapDatas` of one `CScriptDBViewCache`. -/
abbrev ScriptCache := AList fun _ : Bytes => Bytes

namespace ScriptStack

section
variable (db : CScriptDB)

/-- `GetData`, and the caches after it. -/
def getData : List ScriptCache → Bytes → Option Bytes × List ScriptCache
  | [], key => (db.getData key, [])
  | c :: base, key =>
    match c.lookup key with
    | some v => if v ≠ [] then (some v, c :: base) else (none, c :: base)
    | none => match getData base key with
      | (some v, base) => (some v, c.insert key v :: base)
      | (none, base) => (none, c :: base)

/-- `HaveData`. -/
def haveData : List ScriptCache → Bytes → Bool
  | [], key => db.haveData key
  | c :: base, key =>
    match c.lookup key with
    | some v => decide (v ≠ [])
    | none => haveData base key

/-- `SetData` of the top cache. -/
def setData (key value : Bytes) : List ScriptCache → List ScriptCache
  | [] => []
  | c :: base => c.insert key value :: base

/-- `EraseKey` of the top cache, and whether it returned true. -/
def eraseKey (key : Bytes) : List ScriptCache → Bool × List ScriptCache
  | [] => (false, [])
  | c :: base =>
    match c.lookup key with
    | some _ => (true, c.insert key [] :: base)
    | none => match getData db base key with
      | (some _, base) => (true, c.insert key [] :: base)
      | (none, base) => (false, c :: base)

end

/-! ## What a stack answers -/

/-- What a cache says of each key. -/
def level (c : ScriptCache) : Overlay.Level Bytes Bytes := fun key => (c.lookup key).map liveValue

/-- The value a stack holds under a key. -/
def data (db : CScriptDB) (caches : List ScriptCache) : Bytes → Option Bytes :=
  Overlay.resolve db.mapDatas.lookup (caches.map level)

/-- Two stacks over one database that answer every question alike. -/
def SameAnswers (db : CScriptDB) (caches caches' : List ScriptCache) : Prop :=
  ∀ key, data db caches' key = data db caches key

section
variable {db : CScriptDB} {c : ScriptCache} {base base' caches : List ScriptCache} {key : Bytes}

theorem SameAnswers.refl (db : CScriptDB) (caches : List ScriptCache) :
    SameAnswers db caches caches := fun _ => rfl

theorem SameAnswers.trans {caches₁ caches₂ caches₃ : List ScriptCache}
    (h : SameAnswers db caches₁ caches₂) (h' : SameAnswers db caches₂ caches₃) :
    SameAnswers db caches₁ caches₃ := fun key => (h' key).trans (h key)

/-- A change below that is not noticed is not noticed above either. -/
theorem SameAnswers.cons (h : SameAnswers db base base') (c : ScriptCache) :
    SameAnswers db (c :: base) (c :: base') := fun key =>
  Overlay.resolve_cons_congr rfl fun _ => h key

theorem data_cons_of_some {v : Bytes} (h : c.lookup key = some v) :
    data db (c :: base) key = liveValue v := by
  refine Overlay.resolve_cons_of_some ?_
  rw [level, h]
  rfl

theorem data_cons_of_none (h : c.lookup key = none) :
    data db (c :: base) key = data db base key := by
  refine Overlay.resolve_cons_of_none ?_
  rw [level, h]
  rfl

/-- A stack never holds an empty value. -/
theorem data_ne {v : Bytes} (h : data db caches key = some v) : v ≠ [] := by
  induction caches with
  | nil => exact db.nonempty key v h
  | cons c base ih =>
    cases hc : c.lookup key with
    | none =>
      rw [data_cons_of_none hc] at h
      exact ih h
    | some w =>
      rw [data_cons_of_some hc] at h
      exact liveValue_ne h

/-- A copy of a value from below. -/
theorem SameAnswers.insert {v : Bytes} (h : SameAnswers db base base') (hc : c.lookup key = none)
    (hv : data db base key = some v) : SameAnswers db (c :: base) (c.insert key v :: base') := by
  refine Overlay.resolve_copy (fun j => ?_) h
  unfold level
  by_cases hj : j = key
  · subst hj
    refine .inr ⟨by rw [hc]; rfl, ?_⟩
    rw [AList.lookup_insert, Option.map_some, liveValue_of_ne (data_ne hv)]
    exact congrArg some hv.symm
  · exact .inl (by rw [AList.lookup_insert_ne hj])

/-- A read answers what the stack holds, and changes no answer. -/
theorem getData_spec (db : CScriptDB) (caches : List ScriptCache) (key : Bytes) :
    (getData db caches key).1 = data db caches key ∧
      SameAnswers db caches (getData db caches key).2 := by
  induction caches with
  | nil => exact ⟨rfl, .refl db []⟩
  | cons c base ih =>
    unfold getData
    cases hc : c.lookup key with
    | some v =>
      rw [data_cons_of_some hc]
      dsimp only
      by_cases hv : v = []
      · rw [hv, if_neg (by simp)]
        exact ⟨rfl, .refl db _⟩
      · rw [if_pos hv, liveValue_of_ne hv]
        exact ⟨rfl, .refl db _⟩
    | none =>
      obtain ⟨hval, hsame⟩ := ih
      rw [data_cons_of_none hc, ← hval]
      rcases hg : getData db base key with ⟨o, base'⟩
      rw [hg] at hval hsame
      cases o with
      | some v => exact ⟨rfl, hsame.insert hc hval.symm⟩
      | none => exact ⟨rfl, hsame.cons c⟩

end

/-! ## Calls on the top cache -/

end ScriptStack

/-- A call on the top cache of a stack.  Every other operation of a script view is made of these,
or only looks at the maps. -/
inductive ScriptOp where
  | getData (key : Bytes)
  | haveData (key : Bytes)
  | setData (key value : Bytes)
  | eraseKey (key : Bytes)

namespace ScriptStack

section
variable (db : CScriptDB)

/-- The caches after one call. -/
def step (caches : List ScriptCache) : ScriptOp → List ScriptCache
  | .getData key => (getData db caches key).2
  | .haveData _ => caches
  | .setData key value => setData key value caches
  | .eraseKey key => (eraseKey db key caches).2

variable {db} {c : ScriptCache} {base : List ScriptCache}

/-- A read leaves one cache on top of a stack that answers as before. -/
theorem getData_below (key : Bytes) :
    ∃ c' base', (getData db (c :: base) key).2 = c' :: base' ∧ SameAnswers db base base' := by
  rw [getData]
  cases c.lookup key with
  | some v =>
    refine ⟨c, base, ?_, .refl db base⟩
    dsimp only
    split <;> rfl
  | none =>
    have hbelow := (getData_spec db base key).2
    rcases hg : getData db base key with ⟨o, base'⟩
    rw [hg] at hbelow
    cases o with
    | some v => exact ⟨_, base', rfl, hbelow⟩
    | none => exact ⟨c, base', rfl, hbelow⟩

theorem eraseKey_below (key : Bytes) :
    ∃ c' base', (eraseKey db key (c :: base)).2 = c' :: base' ∧ SameAnswers db base base' := by
  rw [eraseKey]
  cases c.lookup key with
  | some v => exact ⟨_, base, rfl, .refl db base⟩
  | none =>
    have hbelow := (getData_spec db base key).2
    rcases hg : getData db base key with ⟨o, base'⟩
    rw [hg] at hbelow
    cases o with
    | some v => exact ⟨_, base', rfl, hbelow⟩
    | none => exact ⟨c, base', rfl, hbelow⟩

/-- So does every call. -/
theorem step_below (op : ScriptOp) :
    ∃ c' base', step db (c :: base) op = c' :: base' ∧ SameAnswers db base base' := by
  cases op with
  | getData key => exact getData_below key
  | haveData key => exact ⟨c, base, rfl, .refl db base⟩
  | setData key value => exact ⟨_, base, rfl, .refl db base⟩
  | eraseKey key => exact eraseKey_below key

/-- However long the top cache is used, what lies below it answers as before. -/
theorem below_sameAnswers (db : CScriptDB) (c : ScriptCache) (base : List ScriptCache)
    (ops : List ScriptOp) : SameAnswers db base (ops.foldl (step db) (c :: base)).tail := by
  induction ops generalizing c base with
  | nil => exact .refl db base
  | cons op ops ih =>
    obtain ⟨c', base', hstep, hsame⟩ := @step_below db c base op
    rw [List.foldl_cons, hstep]
    exact hsame.trans (ih c' base')

end

end ScriptStack

end Dacrs
