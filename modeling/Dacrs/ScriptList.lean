import Dacrs.Lib.Cursor
import Dacrs.ScriptCache
import Dacrs.Sample

/-!
# Listing the scripts

`GetScript` with an index asks a stack for its first script (index 0) and from a script for the
next one (index 1); `listapp` walks through all of them.  A cache merges its own scripts with the
answers of its base, and calls itself again behind a script it has erased.

A script that a cache erased is passed over only if the cache holds a later one, so a stack shows
`shown`, and it never gets past the first script below when that one is passed over at index 0.
-/

open Codec (Bytes)
open Cursor

namespace Dacrs

open CScriptDBViewCache (liveValue liveValue_ne liveValue_of_ne defPrefix scriptKey)

/-- Why an enumeration has no outcome: it is still running after so many calls, or it read beyond
the end of a stored key. -/
inductive Stuck where
  | running
  | outside
deriving DecidableEq

namespace ScriptStack

/-! ## The database -/

/-- The keys of the database and of a cache, in order. -/
def dbKeys (db : CScriptDB) : List Bytes := inOrder db.mapDatas.keys.val

def keysOf (c : ScriptCache) : List Bytes := inOrder (c.keys : Multiset Bytes)

/-- `Seek`: the keys from the cursor on. -/
def seek (key : Bytes) (keys : List Bytes) : List Bytes := keys.dropWhile fun k => decide (k < key)

/-- `upper_bound`. -/
def upperBound (key : Bytes) (keys : List Bytes) : List Bytes := keys.dropWhile fun k => decide (k ≤ key)

/-- The loop over the cursor, with the counter `i`. -/
def scriptCursor : ℕ → List Bytes → Option Bytes
  | _, [] => none
  | i, key :: rest =>
    if key.take 3 = defPrefix then
      match i with
      | 0 => some key
      | i + 1 => scriptCursor i rest
    else none

/-- `CScriptDB::GetScript`, with no id for index 0 and the id to go on from for index 1. -/
def dbGetScript (db : CScriptDB) (q : Option Bytes) : Option (Bytes × Bytes) :=
  let found :=
    match q with
    | none => scriptCursor 0 (seek defPrefix (dbKeys db))
    | some vchScriptId =>
      if vchScriptId = [] then none
      else if db.haveData (scriptKey vchScriptId) then
        scriptCursor 1 (seek (scriptKey vchScriptId) (dbKeys db))
      else scriptCursor 0 (seek (scriptKey vchScriptId) (dbKeys db))
  found.map fun key => (key.drop 3, db.oldValue key)

/-! ## The caches -/

/-- A key of a script that the cache holds. -/
def isScript (c : ScriptCache) (key : Bytes) : Bool :=
  decide (key.take 3 = defPrefix) && decide ((c.lookup key).getD [] ≠ [])

/-- `vchDataKey` and `vchDataValue`: the first script of the cache itself after a question. -/
def ownScript (c : ScriptCache) (q : Option Bytes) : Option (Bytes × Bytes) :=
  let keys :=
    match q with
    | none => keysOf c
    | some vchScriptId => upperBound (scriptKey vchScriptId) (keysOf c)
  (keys.find? (isScript c)).map fun key => (key, (c.lookup key).getD [])

/-- `GetScript` with an index, to the given depth of calls, and the caches after it. -/
def getScript (db : CScriptDB) :
    ℕ → List ScriptCache → Option Bytes → Except Stuck (Option (Bytes × Bytes) × List ScriptCache)
  | 0, _, _ => .error .running
  | _ + 1, [], q => .ok (dbGetScript db q, [])
  | n + 1, c :: base, q =>
    match getScript db n base q with
    | .error what => .error what
    | .ok (none, base) => .ok ((ownScript c q).map fun e => (e.1.drop 3, e.2), c :: base)
    | .ok (some (vchScriptId, vchValue), base) =>
      match ownScript c q with
      | none => .ok (some (vchScriptId, vchValue), c :: base)
      | some (vchDataKey, vchDataValue) =>
        if scriptKey vchScriptId < vchDataKey then
          if c.lookup (scriptKey vchScriptId) = none then .ok (some (vchScriptId, vchValue), c :: base)
          -- erased here: the entry is cleared once more and the call repeated with the id found
          else getScript db n (c.replace (scriptKey vchScriptId) [] :: base) (q.map fun _ => vchScriptId)
        else .ok (some (vchDataKey.drop 3, vchDataValue), c :: base)

/-- The loop of `listapp`. -/
def listScripts (db : CScriptDB) (caches : List ScriptCache) (n : ℕ) : Except Stuck (List (Bytes × Bytes)) :=
  walk (getScript db n) .running n caches none

/-! ## What a stack shows -/

/-- A script the cache itself holds. -/
def ownAt (c : ScriptCache) (id : Bytes) : Option Bytes := (c.lookup (scriptKey id)).bind liveValue

/-- The cache itself holds a script after `id`. -/
def HoldsLater (c : ScriptCache) (id : Bytes) : Prop :=
  ∃ key ∈ c.keys, isScript c key = true ∧ scriptKey id < key

instance decidableHoldsLater (c : ScriptCache) (id : Bytes) : Decidable (HoldsLater c id) :=
  List.decidableBEx _ _

/-- The script that reaches the caller of a stack: a cache that erased it hides it only if it holds
a later one. -/
def shown (db : CScriptDB) : List ScriptCache → Bytes → Option Bytes
  | [], id => db.getData (scriptKey id)
  | c :: base, id =>
    match c.lookup (scriptKey id) with
    | none => shown db base id
    | some v =>
      if v ≠ [] then some v
      else if HoldsLater c id then none
      else shown db base id

/-- No cache erased the first script that reaches it from below while it holds a later one and none
before it. -/
def FirstReached (db : CScriptDB) : List ScriptCache → Prop
  | [] => True
  | c :: base => FirstReached db base ∧
    ∀ id, shown db base id ≠ none → (∀ j, j < id → shown db base j = none ∧ ownAt c j = none) →
      c.lookup (scriptKey id) = some [] → ¬ HoldsLater c id

/-- No erased script reaches the caller. -/
def ErasedHidden (db : CScriptDB) (caches : List ScriptCache) : Prop :=
  ∀ id, data db caches (scriptKey id) = none → shown db caches id = none

/-- No level keeps a record of a script without an id. -/
def Named (db : CScriptDB) (caches : List ScriptCache) : Prop :=
  db.getData (scriptKey []) = none ∧ ∀ c ∈ caches, c.lookup (scriptKey []) = none

/-! ## Keys and ids -/

theorem take_eq_defPrefix {key : Bytes} : key.take 3 = defPrefix ↔ scriptKey (key.drop 3) = key := by
  constructor
  · intro h
    rw [scriptKey, ← h, List.take_append_drop]
  · intro h
    rw [← h]
    rfl

theorem scriptKey_strictMono : StrictMono scriptKey := append_strictMono defPrefix

theorem scriptKey_lt {i j : Bytes} : scriptKey i < scriptKey j ↔ i < j := append_lt_append

/-- The question in terms of keys. -/
def AfterKey (q : Option Bytes) (key : Bytes) : Prop := ∀ id ∈ q, scriptKey id < key

theorem afterKey_scriptKey {q : Option Bytes} {id : Bytes} : After q id ↔ AfterKey q (scriptKey id) := by
  cases q with
  | none => simp [After, AfterKey]
  | some j => simp [After, AfterKey, scriptKey_lt]

/-- The least script by id, from the least one by key. -/
theorem least_by_id {m : Bytes → Option Bytes} {q : Option Bytes} {r : Option (Bytes × Bytes)}
    (h : Least m (AfterKey q) r) (hr : ∀ e, r = some e → e.1.take 3 = defPrefix) :
    Least (fun id => m (scriptKey id)) (After q) (r.map fun e => (e.1.drop 3, e.2)) := by
  have hid : ∀ id, (fun key : Bytes => key.drop 3) (scriptKey id) = id := fun _ => rfl
  have hcomap := h.comap scriptKey_strictMono hid fun e he => ⟨e.1.drop 3, take_eq_defPrefix.mp (hr e he)⟩
  exact hcomap.congr_set fun id => afterKey_scriptKey

section
variable {db : CScriptDB} {c : ScriptCache} {base caches : List ScriptCache} {q : Option Bytes} {id : Bytes}

/-! ## One cache -/

theorem keysOf_ascending (c : ScriptCache) : (keysOf c).Pairwise (· < ·) :=
  inOrder_ascending (Multiset.coe_nodup.mpr c.keys_nodup)

theorem mem_keysOf {key : Bytes} : key ∈ keysOf c ↔ c.lookup key ≠ none := by
  rw [keysOf, mem_inOrder, Multiset.mem_coe, ← AList.mem_keys, ← AList.lookup_isSome, Option.isSome_iff_ne_none]

theorem ownAt_eq (c : ScriptCache) (id : Bytes) :
    ownAt c id = if isScript c (scriptKey id) = true then some ((c.lookup (scriptKey id)).getD []) else none := by
  have hbegins : (scriptKey id).take 3 = defPrefix := rfl
  unfold ownAt isScript
  rw [hbegins]
  cases c.lookup (scriptKey id) with
  | none => rfl
  | some v =>
    by_cases hv : v = []
    · subst hv
      rfl
    · simp [hv, liveValue_of_ne hv]

theorem ownAt_of_some {v : Bytes} (h : c.lookup (scriptKey id) = some v) : ownAt c id = liveValue v := by
  rw [ownAt, h]
  rfl

theorem ownAt_of_none (h : c.lookup (scriptKey id) = none) : ownAt c id = none := by
  rw [ownAt, h]
  rfl

/-- The cache finds the first of its own scripts. -/
theorem ownScript_least (c : ScriptCache) (q : Option Bytes) :
    ∃ r, Least (ownAt c) (After q) r ∧ ownScript c q = r.map fun e => (scriptKey e.1, e.2) := by
  set get : Bytes → Bytes := fun key => (c.lookup key).getD [] with hget
  set m : Bytes → Option Bytes := fun key => if isScript c key = true then some (get key) else none with hm
  have hkeys : ∃ keys : List Bytes, ownScript c q = (keys.find? (isScript c)).map (fun key => (key, get key)) ∧
      keys.Pairwise (· < ·) ∧ ∀ key, key ∈ keys ↔ key ∈ keysOf c ∧ AfterKey q key := by
    cases q with
    | none => exact ⟨keysOf c, rfl, keysOf_ascending c, fun key => by simp [AfterKey]⟩
    | some id =>
      refine ⟨upperBound (scriptKey id) (keysOf c), rfl, pairwise_dropWhile _ (keysOf_ascending c), fun key => ?_⟩
      rw [upperBound, mem_dropWhile_le (keysOf_ascending c)]
      simp [AfterKey]
  obtain ⟨keys, hown, hasc, hmem⟩ := hkeys
  have hleast : Least m (AfterKey q) ((keys.find? (isScript c)).map fun key => (key, get key)) := by
    refine least_find hasc (fun key hkey => ?_) fun key hkey _ => ((hmem key).mp hkey).2
    by_cases hscript : isScript c key = true
    · have hstored : key ∈ keysOf c := by
        rw [mem_keysOf]
        intro hnone
        simp [isScript, hnone] at hscript
      simp [hm, hscript, (hmem key).mpr ⟨hstored, hkey⟩]
    · simp [hm, hscript]
  have hbegins : ∀ e, (keys.find? (isScript c)).map (fun key => (key, get key)) = some e →
      e.1.take 3 = defPrefix := by
    intro e he
    obtain ⟨key, hfind, rfl⟩ := Option.map_eq_some_iff.mp he
    have hscript := List.find?_some hfind
    simp only [isScript, Bool.and_eq_true, decide_eq_true_eq] at hscript
    exact hscript.1
  refine ⟨_, (least_by_id hleast hbegins).congr fun id _ => ownAt_eq c id, ?_⟩
  rw [hown]
  cases hfind : (keys.find? (isScript c)).map (fun key => (key, get key)) with
  | none => rfl
  | some e =>
    have hkey := take_eq_defPrefix.mp (hbegins e hfind)
    show some e = some (scriptKey (e.1.drop 3), e.2)
    rw [hkey]

theorem holdsLater_iff : HoldsLater c id ↔ ∃ j, id < j ∧ ownAt c j ≠ none := by
  constructor
  · rintro ⟨key, _, hscript, hlt⟩
    have hbegins := hscript
    simp only [isScript, Bool.and_eq_true, decide_eq_true_eq] at hbegins
    have hkey := take_eq_defPrefix.mp hbegins.1
    refine ⟨key.drop 3, scriptKey_lt.mp (hkey ▸ hlt), ?_⟩
    rw [ownAt_eq, hkey, if_pos hscript]
    simp
  · rintro ⟨j, hlt, hj⟩
    rw [ownAt_eq] at hj
    have hscript : isScript c (scriptKey j) = true := by
      by_contra hno
      exact hj (if_neg hno)
    refine ⟨scriptKey j, ?_, hscript, scriptKey_lt.mpr hlt⟩
    have hstored : c.lookup (scriptKey j) ≠ none := by
      intro hnone
      simp [isScript, hnone] at hscript
    exact AList.mem_keys.mp (AList.lookup_isSome.mp (Option.isSome_iff_ne_none.mpr hstored))

/-! ## The database -/

theorem dbKeys_ascending (db : CScriptDB) : (dbKeys db).Pairwise (· < ·) :=
  inOrder_ascending db.mapDatas.keys.nodup

theorem mem_dbKeys {key : Bytes} : key ∈ dbKeys db ↔ db.getData key ≠ none := by
  rw [dbKeys, mem_inOrder, Finset.mem_val, Finmap.mem_keys, ← Finmap.lookup_isSome, Option.isSome_iff_ne_none]
  rfl

/-- The cursor at the first key after a question. -/
theorem scriptCursor_least {l : List Bytes} (hasc : l.Pairwise (· < ·))
    (hmem : ∀ key, key ∈ l ↔ key ∈ dbKeys db ∧ defPrefix ≤ key ∧ AfterKey q key) :
    Least (fun id => db.getData (scriptKey id)) (After q)
      ((scriptCursor 0 l).map fun key => (key.drop 3, db.oldValue key)) := by
  set m : Bytes → Option Bytes := fun key => if key.take 3 = defPrefix then db.getData key else none with hm
  have hstored : ∀ key, AfterKey q key → m key ≠ none → key ∈ l := by
    intro key hkey hne
    by_cases hbegins : key.take 3 = defPrefix
    · rw [hm] at hne
      simp only [hbegins, if_true] at hne
      refine (hmem key).mpr ⟨mem_dbKeys.mpr hne, ?_, hkey⟩
      rw [← take_eq_defPrefix.mp hbegins]
      exact List.le_append_left
    · exact absurd (if_neg hbegins) hne
  have hleast : Least m (AfterKey q) ((scriptCursor 0 l).map fun key => (key, db.oldValue key)) := by
    cases l with
    | nil =>
      intro key hkey
      by_contra hne
      exact List.not_mem_nil (hstored key hkey hne)
    | cons first l =>
      obtain ⟨hfirst, hle, hafter⟩ := (hmem first).mp List.mem_cons_self
      have hleast : ∀ key ∈ first :: l, first ≤ key := by
        intro key hkey
        rcases List.mem_cons.mp hkey with rfl | hkey
        · exact le_rfl
        · exact le_of_lt ((List.pairwise_cons.mp hasc).1 key hkey)
      by_cases hbegins : first.take 3 = defPrefix
      · rw [scriptCursor, if_pos hbegins]
        refine ⟨hafter, ?_, fun key hkey hlt => ?_⟩
        · show m first = some (db.oldValue first)
          rw [hm]
          simp only [hbegins, if_true]
          obtain ⟨v, hv⟩ := Option.ne_none_iff_exists'.mp (mem_dbKeys.mp hfirst)
          rw [CScriptDBViewCache.oldValue, hv]
          rfl
        · by_contra hne
          exact absurd hlt (not_lt.mpr (hleast key (hstored key hkey hne)))
      · rw [scriptCursor, if_neg hbegins]
        intro key hkey
        by_contra hne
        have hkeyBegins : key.take 3 = defPrefix := by
          by_contra hno
          exact hne (if_neg hno)
        have hnot : ¬ defPrefix <+: first := by
          rintro ⟨rest, rfl⟩
          exact hbegins rfl
        have hlt := append_lt_of_not_prefix hle hnot (key.drop 3)
        rw [← scriptKey, take_eq_defPrefix.mp hkeyBegins] at hlt
        exact absurd hlt (not_lt.mpr (hleast key (hstored key hkey hne)))
  have hbegins : ∀ e, (scriptCursor 0 l).map (fun key => (key, db.oldValue key)) = some e →
      e.1.take 3 = defPrefix := by
    intro e he
    obtain ⟨key, hkey, rfl⟩ := Option.map_eq_some_iff.mp he
    cases l with
    | nil => cases hkey
    | cons first l =>
      rw [scriptCursor] at hkey
      split at hkey
      · next hfirst =>
        obtain rfl := Option.some.inj hkey
        exact hfirst
      · cases hkey
  have h := least_by_id hleast hbegins
  rw [Option.map_map] at h
  exact h.congr fun id _ => (if_pos rfl).symm

/-- The database answers with its first script, and with the next one to every id that is not empty. -/
theorem dbGetScript_least (db : CScriptDB) (hq : q ≠ some []) :
    Least (fun id => db.getData (scriptKey id)) (After q) (dbGetScript db q) := by
  cases q with
  | none =>
    refine scriptCursor_least (pairwise_dropWhile _ (dbKeys_ascending db)) fun key => ?_
    rw [seek, mem_dropWhile_lt (dbKeys_ascending db)]
    simp [AfterKey]
  | some id =>
    have hid : id ≠ [] := fun h => hq (congrArg some h)
    have hnext : dbGetScript db (some id) = (scriptCursor 0 (upperBound (scriptKey id) (dbKeys db))).map
        fun key => (key.drop 3, db.oldValue key) := by
      unfold dbGetScript
      dsimp only
      rw [if_neg hid]
      by_cases hmem : scriptKey id ∈ dbKeys db
      · have hhave : db.haveData (scriptKey id) = true := Option.isSome_iff_ne_none.mpr (mem_dbKeys.mp hmem)
        rw [if_pos hhave, seek, dropWhile_lt_of_mem (dbKeys_ascending db) hmem]
        rfl
      · have hhave : ¬ db.haveData (scriptKey id) = true := fun h =>
          hmem (mem_dbKeys.mpr (Option.isSome_iff_ne_none.mp h))
        rw [if_neg hhave, seek, dropWhile_lt_of_notMem hmem]
        rfl
    rw [hnext]
    refine scriptCursor_least (pairwise_dropWhile _ (dbKeys_ascending db)) fun key => ?_
    rw [upperBound, mem_dropWhile_le (dbKeys_ascending db)]
    constructor
    · rintro ⟨hmem, hlt⟩
      exact ⟨hmem, le_trans List.le_append_left (le_of_lt hlt), by simpa [AfterKey] using hlt⟩
    · rintro ⟨hmem, _, hafter⟩
      exact ⟨hmem, hafter id rfl⟩

end

/-! ## One cache over the answers of its base -/

section
variable {db : CScriptDB} {c : ScriptCache} {base caches : List ScriptCache} {q : Option Bytes} {id : Bytes}

theorem shown_of_none (h : c.lookup (scriptKey id) = none) : shown db (c :: base) id = shown db base id := by
  rw [shown, h]

theorem shown_of_own {v : Bytes} (h : ownAt c id = some v) : shown db (c :: base) id = some v := by
  cases hlookup : c.lookup (scriptKey id) with
  | none =>
    rw [ownAt_of_none hlookup] at h
    cases h
  | some w =>
    rw [ownAt_of_some hlookup] at h
    have hw : w ≠ [] := by
      rintro rfl
      cases h
    rw [liveValue_of_ne hw] at h
    rw [shown, hlookup]
    dsimp only
    rw [if_pos hw, h]

/-- A cached entry that is no script of the cache's own is an erased one. -/
theorem erased_of_own (h : c.lookup (scriptKey id) ≠ none) (hown : ownAt c id = none) :
    c.lookup (scriptKey id) = some [] := by
  obtain ⟨v, hv⟩ := Option.ne_none_iff_exists'.mp h
  rw [ownAt_of_some hv] at hown
  have hempty : v = [] := by
    by_contra hne
    rw [liveValue_of_ne hne] at hown
    cases hown
  rw [hv, hempty]

theorem shown_of_erased (h : c.lookup (scriptKey id) = some []) :
    shown db (c :: base) id = if HoldsLater c id then none else shown db base id := by
  rw [shown, h]
  rfl

theorem shown_within (db : CScriptDB) (c : ScriptCache) (base : List ScriptCache) :
    Within (shown db (c :: base)) (ownAt c) (shown db base) := by
  intro id hown hbase
  by_cases hlookup : c.lookup (scriptKey id) = none
  · rw [shown_of_none hlookup, hbase]
  · rw [shown_of_erased (erased_of_own hlookup hown), hbase]
    exact ite_self _

/-- A cache without a later script of its own shows what comes from below. -/
theorem shown_of_no_later {v : Bytes} (hbase : shown db base id = some v)
    (hown : ∀ j, After q j → ownAt c j = none) (hafter : ∀ j, id ≤ j → After q j) :
    shown db (c :: base) id = some v := by
  by_cases hlookup : c.lookup (scriptKey id) = none
  · rw [shown_of_none hlookup, hbase]
  · have hnone := hown id (hafter id le_rfl)
    have hlater : ¬ HoldsLater c id := by
      rw [holdsLater_iff]
      rintro ⟨j, hlt, hj⟩
      exact hj (hown j (hafter j (le_of_lt hlt)))
    rw [shown_of_erased (erased_of_own hlookup hnone), if_neg hlater, hbase]

theorem replace_erased (h : c.lookup (scriptKey id) = some []) : c.replace (scriptKey id) [] = c := by
  refine AList.ext ?_
  exact List.kreplace_self c.nodupKeys (List.of_mem_dlookup h)

/-- A cache answers a question that its base answers, provided it does so again behind a first
answer it has erased. -/
theorem answers_cons (hbase : Answers (getScript db) base (shown db base) q)
    (hagain : ∀ b, After q b → shown db base b ≠ none →
      (∀ j, After q j → j < b → shown db base j = none ∧ ownAt c j = none) →
      c.lookup (scriptKey b) = some [] → HoldsLater c b →
        (∃ j, q = some j) ∧ Answers (getScript db) (c :: base) (shown db (c :: base)) (some b)) :
    Answers (getScript db) (c :: base) (shown db (c :: base)) q := by
  obtain ⟨r, hr, N, hN⟩ := hbase
  obtain ⟨own, hown, hownEq⟩ := ownScript_least c q
  have hwithin := shown_within db c base
  cases r with
  | none =>
    refine ⟨own, ?_, N + 1, fun n hn => ?_⟩
    · cases own with
      | none => exact Least.of_neither hwithin hown hr
      | some e => exact Least.of_upper hwithin hown (shown_of_own hown.2.1) hr fun _ h => by cases h
    · obtain ⟨n, rfl⟩ := Nat.exists_eq_add_of_le' hn
      show getScript db (n + N + 1) (c :: base) q = _
      rw [getScript, hN (n + N) (by omega), hownEq]
      cases own <;> rfl
  | some e =>
    obtain ⟨b, v⟩ := e
    obtain ⟨hafter, hb, hmin⟩ := hr
    cases own with
    | none =>
      refine ⟨some (b, v), Least.of_lower hwithin ⟨hafter, hb, hmin⟩ ?_ hown fun _ h => (by cases h), N + 1, fun n hn => ?_⟩
      · exact shown_of_no_later hb hown fun j hj => hafter.mono hj
      · obtain ⟨n, rfl⟩ := Nat.exists_eq_add_of_le' hn
        show getScript db (n + N + 1) (c :: base) q = _
        rw [getScript, hN (n + N) (by omega), hownEq]
        rfl
    | some f =>
      obtain ⟨l, w⟩ := f
      have hstep : ∀ n, N + 1 ≤ n + 1 → getScript db (n + 1) (c :: base) q
          = if scriptKey b < scriptKey l then
              if c.lookup (scriptKey b) = none then .ok (some (b, v), c :: base)
              else getScript db n (c.replace (scriptKey b) [] :: base) (q.map fun _ => b)
            else .ok (some (l, w), c :: base) := by
        intro n hn
        rw [getScript, hN n (by omega), hownEq]
        rfl
      by_cases hlt : b < l
      · by_cases hlookup : c.lookup (scriptKey b) = none
        · refine ⟨some (b, v), Least.of_lower hwithin ⟨hafter, hb, hmin⟩ ?_ hown ?_, N + 1, fun n hn => ?_⟩
          · exact (shown_of_none hlookup).trans hb
          · rintro f hf
            obtain rfl := Option.some.inj hf
            exact le_of_lt hlt
          · obtain ⟨n, rfl⟩ := Nat.exists_eq_add_of_le' hn
            show getScript db (n + N + 1) (c :: base) q = _
            rw [hstep (n + N) (by omega), if_pos (scriptKey_lt.mpr hlt), if_pos hlookup]
        · have herased := erased_of_own hlookup (hown.2.2 b hafter hlt)
          have hlater : HoldsLater c b := holdsLater_iff.mpr ⟨l, hlt, by rw [hown.2.1]; simp⟩
          obtain ⟨⟨j, rfl⟩, r', hr', M, hM⟩ := hagain b hafter (by rw [hb]; simp)
            (fun k hk hkb => ⟨hmin k hk hkb, hown.2.2 k hk (lt_trans hkb hlt)⟩) herased hlater
          refine ⟨r', Least.skip (fun k hk => lt_trans hafter hk) (fun k hk hle => ?_) hr', N + M + 1, fun n hn => ?_⟩
          · rcases lt_or_eq_of_le hle with hkb | rfl
            · exact hwithin k (hown.2.2 k hk (lt_trans hkb hlt)) (hmin k hk hkb)
            · rw [shown_of_erased herased, if_pos hlater]
          · obtain ⟨n, rfl⟩ := Nat.exists_eq_add_of_le' hn
            show getScript db (n + (N + M) + 1) (c :: base) (some j) = _
            rw [hstep (n + (N + M)) (by omega), if_pos (scriptKey_lt.mpr hlt), if_neg hlookup, replace_erased herased]
            exact hM (n + (N + M)) (by omega)
      · refine ⟨some (l, w), Least.of_upper hwithin hown (shown_of_own hown.2.1) (r := some (b, v)) ⟨hafter, hb, hmin⟩ ?_, N + 1, fun n hn => ?_⟩
        · rintro f hf
          obtain rfl := Option.some.inj hf
          exact not_lt.mp hlt
        · obtain ⟨n, rfl⟩ := Nat.exists_eq_add_of_le' hn
          show getScript db (n + N + 1) (c :: base) q = _
          rw [hstep (n + N) (by omega), if_neg (mt scriptKey_lt.mp hlt)]

theorem answers_nil (hq : q ≠ some []) : Answers (getScript db) [] (shown db []) q := by
  refine ⟨dbGetScript db q, dbGetScript_least db hq, 1, fun n hn => ?_⟩
  obtain ⟨n, rfl⟩ := Nat.exists_eq_add_of_le' hn
  rfl

/-- Only finitely many scripts are shown. -/
theorem shown_finite (db : CScriptDB) (caches : List ScriptCache) :
    ∃ B : Finset Bytes, ∀ id, shown db caches id ≠ none → id ∈ B := by
  induction caches with
  | nil =>
    refine ⟨(dbKeys db).toFinset.image fun key => key.drop 3, fun id hid => ?_⟩
    exact Finset.mem_image.mpr ⟨scriptKey id, List.mem_toFinset.mpr (mem_dbKeys.mpr hid), rfl⟩
  | cons c base ih =>
    obtain ⟨B, hB⟩ := ih
    refine ⟨B ∪ c.keys.toFinset.image fun key => key.drop 3, fun id hid => ?_⟩
    rw [Finset.mem_union]
    by_cases hbase : shown db base id = none
    · right
      have hlookup : c.lookup (scriptKey id) ≠ none := fun h => hid ((shown_of_none h).trans hbase)
      refine Finset.mem_image.mpr ⟨scriptKey id, List.mem_toFinset.mpr ?_, rfl⟩
      exact AList.mem_keys.mp (AList.lookup_isSome.mp (Option.isSome_iff_ne_none.mpr hlookup))
    · exact .inl (hB id hbase)

/-- Index 1: behind an erased script the next question is asked at a later id, and there are only
finitely many. -/
theorem answers_next (db : CScriptDB) (caches : List ScriptCache) (hid : id ≠ []) :
    Answers (getScript db) caches (shown db caches) (some id) := by
  induction caches generalizing id with
  | nil => exact answers_nil fun h => hid (Option.some.inj h)
  | cons c base ih =>
    obtain ⟨B, hB⟩ := shown_finite db base
    induction hcard : (B.filter (After (some id))).card using Nat.strong_induction_on generalizing id with
    | _ i hi =>
      refine answers_cons (ih hid) fun b hafter hb _ _ _ => ⟨⟨id, rfl⟩, ?_⟩
      have hne : b ≠ [] := by
        rintro rfl
        exact not_lt_nil id hafter
      exact hi _ (hcard ▸ card_after_lt hafter (hB b hb)) hne rfl

/-- Index 0, when no cache has to ask again. -/
theorem answers_first (h : FirstReached db caches) : Answers (getScript db) caches (shown db caches) none := by
  induction caches with
  | nil => exact answers_nil (by simp)
  | cons c base ih =>
    obtain ⟨hbase, hfirst⟩ := h
    refine answers_cons (ih hbase) fun b _ hb hmin herased hlater => ?_
    exact absurd hlater (hfirst b hb (fun j hj => hmin j trivial hj) herased)

/-! ## A question asked for ever -/

/-- An answer is the same at every larger depth. -/
theorem getScript_succ {n : ℕ} {x : Option (Bytes × Bytes) × List ScriptCache}
    (h : getScript db n caches q = .ok x) : getScript db (n + 1) caches q = .ok x := by
  induction n generalizing caches q x with
  | zero => cases h
  | succ n ih =>
    cases caches with
    | nil => exact h
    | cons c base =>
      rw [getScript] at h ⊢
      cases hbase : getScript db n base q with
      | error what =>
        rw [hbase] at h
        cases h
      | ok y =>
        rw [hbase] at h
        rw [ih hbase]
        obtain ⟨r, base'⟩ := y
        cases r with
        | none => exact h
        | some e =>
          dsimp only at h ⊢
          cases hown : ownScript c q with
          | none =>
            rw [hown] at h
            exact h
          | some f =>
            rw [hown] at h
            dsimp only at h ⊢
            split at h
            · next hlt =>
              rw [if_pos hlt]
              split at h
              · next hnone =>
                rw [if_pos hnone]
                exact h
              · next hsome =>
                rw [if_neg hsome]
                exact ih h
            · next hge =>
              rw [if_neg hge]
              exact h

theorem getScript_le {n k : ℕ} {x : Option (Bytes × Bytes) × List ScriptCache} (hle : n ≤ k)
    (h : getScript db n caches q = .ok x) : getScript db k caches q = .ok x := by
  induction k, hle using Nat.le_induction with
  | base => exact h
  | succ k _ ih => exact getScript_succ ih

/-- At every depth the question for the first script is still open. -/
theorem getScript_loops (h : ¬ FirstReached db caches) (n : ℕ) :
    ∃ what, getScript db n caches none = .error what := by
  induction caches generalizing n with
  | nil => exact absurd trivial h
  | cons c base ih =>
    by_cases hbase : FirstReached db base
    · obtain ⟨b, hb, hmin, herased, hlater⟩ : ∃ b, shown db base b ≠ none ∧
          (∀ j, j < b → shown db base j = none ∧ ownAt c j = none) ∧
          c.lookup (scriptKey b) = some [] ∧ HoldsLater c b := by
        by_contra hno
        refine h ⟨hbase, fun b hb hmin herased hlater => hno ⟨b, hb, hmin, herased, hlater⟩⟩
      obtain ⟨v, hv⟩ := Option.ne_none_iff_exists'.mp hb
      obtain ⟨r, hr, N, hN⟩ := answers_first hbase
      have hbLeast : Least (shown db base) (After none) (some (b, v)) := ⟨trivial, hv, fun j _ hj => (hmin j hj).1⟩
      obtain rfl := hr.unique hbLeast
      obtain ⟨own, hown, hownEq⟩ := ownScript_least c none
      obtain ⟨l, w, rfl, hlt⟩ : ∃ l w, own = some (l, w) ∧ b < l := by
        obtain ⟨j, hbj, hj⟩ := holdsLater_iff.mp hlater
        cases own with
        | none => exact absurd (hown j trivial) hj
        | some f =>
          have hfown : ownAt c f.1 = some f.2 := hown.2.1
          refine ⟨f.1, f.2, rfl, ?_⟩
          rcases lt_trichotomy f.1 b with hfb | hfb | hfb
          · cases (hmin f.1 hfb).2.symm.trans hfown
          · rw [hfb, ownAt_of_some herased] at hfown
            cases hfown
          · exact hfb
      induction n with
      | zero => exact ⟨.running, rfl⟩
      | succ n ihn =>
        rw [getScript]
        cases hask : getScript db n base none with
        | error what => exact ⟨what, rfl⟩
        | ok x =>
          have hx := (getScript_le (Nat.le_add_right n N) hask).symm.trans (hN (n + N) (by omega))
          obtain rfl := Except.ok.inj hx
          rw [hownEq]
          dsimp only [Option.map_some]
          rw [if_pos (scriptKey_lt.mpr hlt), if_neg (by rw [herased]; simp), replace_erased herased]
          exact ihn
    · cases n with
      | zero => exact ⟨.running, rfl⟩
      | succ n =>
        obtain ⟨what, herr⟩ := ih hbase n
        exact ⟨what, by rw [getScript, herr]⟩

end

/-! ## The whole list -/

section
variable {db : CScriptDB} {caches : List ScriptCache}

theorem shown_of_named (h : Named db caches) : shown db caches [] = none := by
  obtain ⟨hdb, hcaches⟩ := h
  induction caches with
  | nil => exact hdb
  | cons c base ih =>
    rw [shown_of_none (hcaches c List.mem_cons_self)]
    exact ih fun c hc => hcaches c (List.mem_cons_of_mem _ hc)

/-- When the first script is reached, the list is what the stack shows. -/
theorem listScripts_iff_shown {m : Bytes → Option Bytes} (hnamed : Named db caches)
    (hfirst : FirstReached db caches) : Enumerates (listScripts db caches) m ↔ shown db caches = m := by
  refine enumerates_iff (shown_finite db caches) (answers_first hfirst) fun id hid => ?_
  refine answers_next db caches ?_
  rintro rfl
  exact hid (shown_of_named hnamed)

/-- Otherwise there is none. -/
theorem listScripts_loops {m : Bytes → Option Bytes} (h : ¬ FirstReached db caches) :
    ¬ Enumerates (listScripts db caches) m := by
  refine not_enumerates fun n => ?_
  cases n with
  | zero => exact ⟨.running, rfl⟩
  | succ n =>
    obtain ⟨what, herr⟩ := getScript_loops h (n + 1)
    exact ⟨what, by rw [listScripts, walk, herr]⟩

/-- A script that is there is shown. -/
theorem shown_of_data {id v : Bytes} (h : data db caches (scriptKey id) = some v) :
    shown db caches id = some v := by
  induction caches with
  | nil => exact h
  | cons c base ih =>
    cases hlookup : c.lookup (scriptKey id) with
    | none =>
      rw [data_cons_of_none hlookup] at h
      rw [shown_of_none hlookup]
      exact ih h
    | some w =>
      rw [data_cons_of_some hlookup] at h
      exact shown_of_own ((ownAt_of_some hlookup).trans h)

theorem erasedHidden_iff : ErasedHidden db caches ↔ shown db caches = fun id => data db caches (scriptKey id) := by
  constructor
  · intro h
    funext id
    cases hdata : data db caches (scriptKey id) with
    | none => exact h id hdata
    | some v => exact shown_of_data hdata
  · intro h id hdata
    rw [congrFun h id, hdata]

/-- The list of scripts is complete exactly if no erased script shows through and no cache erased
the first script below it while it holds later ones only. -/
theorem scripts_enumerated_iff (h : Named db caches) :
    Enumerates (listScripts db caches) (fun id => data db caches (scriptKey id)) ↔
      ErasedHidden db caches ∧ FirstReached db caches := by
  rw [erasedHidden_iff]
  by_cases hfirst : FirstReached db caches
  · rw [listScripts_iff_shown h hfirst]
    exact ⟨fun hshown => ⟨hshown, hfirst⟩, fun hboth => hboth.1⟩
  · exact ⟨fun henum => absurd henum (listScripts_loops hfirst), fun hboth => absurd hboth.2 hfirst⟩

end

end ScriptStack

/-! ## Two scripts -/

namespace Sample

open ScriptStack

def firstId : Bytes := [1, 0, 0, 0, 1, 0]
def secondId : Bytes := [2, 0, 0, 0, 1, 0]

/-- The first script is in the database. -/
def storedScripts : CScriptDB := scriptsOf [(scriptKey firstId, [7])]

/-- Its registration is undone in the cache. -/
def undoneCache : ScriptCache := (∅ : ScriptCache).insert (scriptKey firstId) []

/-- The second script is registered in the cache after that, or with the first one in place. -/
def replacedCache : ScriptCache := undoneCache.insert (scriptKey secondId) [8]
def addedCache : ScriptCache := (∅ : ScriptCache).insert (scriptKey secondId) [8]

theorem storedScripts_getData (key : Bytes) :
    storedScripts.getData key = if key = scriptKey firstId then some [7] else none := by
  show (Store.put ∅ (scriptKey firstId) (some [7])).lookup key = _
  rw [Store.lookup_put, Finmap.lookup_empty]

theorem storedScripts_eq_none {id : Bytes} (h : id ≠ firstId) : storedScripts.getData (scriptKey id) = none := by
  rw [storedScripts_getData, if_neg fun heq => h (scriptKey_strictMono.injective heq)]

/-- A script whose registration was undone is listed, and with another one registered since the
list never begins. -/
theorem undone_script_listed :
    ¬ Enumerates (listScripts storedScripts [undoneCache]) (fun id => data storedScripts [undoneCache] (scriptKey id)) ∧
      ¬ Enumerates (listScripts storedScripts [replacedCache])
        (fun id => data storedScripts [replacedCache] (scriptKey id)) := by
  constructor
  · have hfirst : FirstReached storedScripts [undoneCache] := by
      refine ⟨trivial, fun id _ _ _ => ?_⟩
      rintro ⟨key, hkey, hscript, _⟩
      obtain rfl : key = scriptKey firstId := by simpa [undoneCache] using hkey
      revert hscript
      decide
    have hnamed : Named storedScripts [undoneCache] := ⟨by decide +kernel, by decide +kernel⟩
    rw [listScripts_iff_shown hnamed hfirst]
    intro hshown
    have hone := congrFun hshown firstId
    revert hone
    decide +kernel
  · refine listScripts_loops fun hfirst => ?_
    refine hfirst.2 firstId (by decide +kernel) (fun j hj => ⟨storedScripts_eq_none hj.ne, ?_⟩) (by decide +kernel)
      (by decide +kernel)
    have hne : scriptKey j ≠ scriptKey firstId := fun h => hj.ne (scriptKey_strictMono.injective h)
    have hne' : scriptKey j ≠ scriptKey secondId := by
      intro h
      obtain rfl := scriptKey_strictMono.injective h
      revert hj
      decide
    apply ownAt_of_none
    rw [replacedCache, undoneCache, AList.lookup_insert_ne hne', AList.lookup_insert_ne hne, AList.lookup_empty]

/-- Two scripts, one in the database and one in the cache, are listed. -/
theorem scripts_enumerated_both :
    Enumerates (listScripts storedScripts [addedCache]) fun id => data storedScripts [addedCache] (scriptKey id) := by
  have hnamed : Named storedScripts [addedCache] := ⟨by decide +kernel, by decide +kernel⟩
  have hnone : ∀ id, id ≠ secondId → addedCache.lookup (scriptKey id) = none := by
    intro id hid
    have hne : scriptKey id ≠ scriptKey secondId := fun h => hid (scriptKey_strictMono.injective h)
    rw [addedCache, AList.lookup_insert_ne hne, AList.lookup_empty]
  refine (scripts_enumerated_iff hnamed).mpr ⟨fun id hid => ?_, trivial, fun id _ _ herased => ?_⟩
  · by_cases h : id = secondId
    · subst h
      revert hid
      decide +kernel
    · rw [data_cons_of_none (hnone id h)] at hid
      rw [shown_of_none (hnone id h)]
      exact hid
  · by_cases h : id = secondId
    · subst h
      revert herased
      decide +kernel
    · rw [hnone id h] at herased
      cases herased

end Sample

end Dacrs
