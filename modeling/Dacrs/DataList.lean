import Dacrs.ScriptList

/-!
# Listing the data of a script

`GetScriptData` with an index: a cache merges its own data keys of the script with the answers of
its base, and asks the base again behind every key it has changed itself.  The prefix comparisons
copy eleven bytes of each key they look at.

The keys above the empty one are merged without a flaw, provided no key that is looked at is
shorter than that.  The empty key is passed over in every cache, and the database does not answer
the question behind it, so its own keys are missed up to the first one that a cache supplies.
-/

open Codec (Bytes)
open Cursor

namespace Dacrs

open CScriptDBViewCache (liveValue liveValue_ne liveValue_of_ne dataPrefix underscore scriptKey scriptDataKey)

namespace ScriptStack

/-- `vchKey`: what all data keys of a script begin with. -/
def dataKeyPrefix (id : Bytes) : Bytes := dataPrefix ++ id ++ [underscore]

/-! ## The database -/

/-- The loop over the cursor, with the counter `i`; `memcmp` takes eleven bytes of the key. -/
def dataCursor (cDSKeySet : Bytes) : ℕ → List Bytes → Except Stuck (Option Bytes)
  | _, [] => .ok none
  | i, key :: rest =>
    if key.length < 11 then .error .outside
    else if key.take 11 = cDSKeySet.take 11 then
      match i with
      | 0 => .ok (some key)
      | i + 1 => dataCursor cDSKeySet i rest
    else .ok none

/-- `CScriptDB::GetScriptData`, with no key for index 0 and the key to go on from for index 1. -/
def dbGetScriptData (db : CScriptDB) (id : Bytes) (q : Option Bytes) : Except Stuck (Option (Bytes × Bytes)) :=
  let found :=
    match q with
    | none => dataCursor (dataKeyPrefix id) 0 (seek (dataKeyPrefix id) (dbKeys db))
    | some vchScriptKey =>
      if vchScriptKey = [] then .ok none
      else
        let cDSKeySet := dataKeyPrefix id ++ vchScriptKey
        if db.haveData cDSKeySet then dataCursor cDSKeySet 1 (seek cDSKeySet (dbKeys db))
        else dataCursor cDSKeySet 0 (seek cDSKeySet (dbKeys db))
  found.map fun key => key.map fun key => (key.drop 11, db.oldValue key)

/-! ## The caches -/

/-- `vchDataKey` and `vchDataValue`: the first key of the cache itself that holds a value, in the
loop over the keys from `upper_bound` on. -/
def ownData (c : ScriptCache) (vchKey : Bytes) : List Bytes → Except Stuck (Option (Bytes × Bytes))
  | [] => .ok none
  | key :: rest =>
    -- the copy of the first `vchScriptId.size() + 5` bytes
    if key.length < vchKey.length then .error .outside
    else if key.take vchKey.length = vchKey then
      if (c.lookup key).getD [] = [] then ownData c vchKey rest
      else .ok (some (key, (c.lookup key).getD []))
    else .ok none

/-- The loop over the answers of the base, `i` rounds at most. -/
def baseLoop (c : ScriptCache) (vchKey : Bytes) (own : Option (Bytes × Bytes))
    (ask : Option Bytes → Except Stuck (Option (Bytes × Bytes))) :
    ℕ → Option Bytes → Except Stuck (Option (Bytes × Bytes))
  | 0, _ => .error .running
  | i + 1, q =>
    match ask q with
    | .error what => .error what
    | .ok none =>
      match own with
      | none => .ok none
      | some (vchDataKey, vchDataValue) =>
        if vchDataValue = [] then .ok none else .ok (some (vchDataKey.drop 11, vchDataValue))
    | .ok (some (vchScriptKey, vchScriptData)) =>
      match own with
      | none =>
        if c.lookup (vchKey ++ vchScriptKey) = none then .ok (some (vchScriptKey, vchScriptData))
        else baseLoop c vchKey own ask i (some vchScriptKey)
      | some (vchDataKey, vchDataValue) =>
        if vchKey ++ vchScriptKey < vchDataKey then
          if c.lookup (vchKey ++ vchScriptKey) = none then .ok (some (vchScriptKey, vchScriptData))
          else baseLoop c vchKey own ask i (some vchScriptKey)
        else if vchDataValue = [] then baseLoop c vchKey own ask i (some vchScriptKey)
        else .ok (some (vchDataKey.drop 11, vchDataValue))

/-- `GetScriptData` with an index, each loop to the given number of rounds. -/
def getScriptData (db : CScriptDB) (id : Bytes) (n : ℕ) :
    List ScriptCache → Option Bytes → Except Stuck (Option (Bytes × Bytes))
  | [], q => dbGetScriptData db id q
  | c :: base, q =>
    match ownData c (dataKeyPrefix id) (upperBound (dataKeyPrefix id ++ q.getD []) (keysOf c)) with
    | .error what => .error what
    | .ok own => baseLoop c (dataKeyPrefix id) own (getScriptData db id n base) n q

/-- Index 0, and then index 1 from each key; no map is changed. -/
def listData (db : CScriptDB) (caches : List ScriptCache) (id : Bytes) (n : ℕ) :
    Except Stuck (List (Bytes × Bytes)) :=
  walk (fun s q => (getScriptData db id n s q).map (·, s)) .running n caches none

/-! ## What can go wrong -/

/-- The first key after those of the script has all the bytes that are compared. -/
def StopFits (stored : Bytes → Prop) (id : Bytes) : Prop :=
  ∀ key, stored key → dataKeyPrefix id < key → ¬ dataKeyPrefix id <+: key →
    (∀ j, stored j → dataKeyPrefix id < j → ¬ dataKeyPrefix id <+: j → key ≤ j) → 11 ≤ key.length

def StopFitsIn (c : ScriptCache) (id : Bytes) : Prop := StopFits (fun key => c.lookup key ≠ none) id

/-- A data key that the cache itself supplies; never the empty one. -/
def ownDataAt (c : ScriptCache) (id key : Bytes) : Option Bytes :=
  if key = [] then none else (c.lookup (scriptDataKey id key)).bind liveValue

def Supplies (caches : List ScriptCache) (id : Bytes) : Prop :=
  ∃ c ∈ caches, ∃ key, ownDataAt c id key ≠ none

/-- The empty key, where it has a value, has it in the database with no cache over it; and where
the database has one, every other key comes after one that a cache supplies, or is such a key. -/
def EmptyKeyHarmless (db : CScriptDB) (caches : List ScriptCache) (id : Bytes) : Prop :=
  (data db caches (scriptDataKey id []) ≠ none → ∀ c ∈ caches, c.lookup (scriptDataKey id []) = none) ∧
    (db.getData (scriptDataKey id []) ≠ none → ∀ key, key ≠ [] → data db caches (scriptDataKey id key) ≠ none →
      ∃ c ∈ caches, ∃ j, j ≤ key ∧ ownDataAt c id j ≠ none)

/-- No comparison reads beyond the end of a key.  The database does not get to the end of the
script's keys when it holds the empty one and no cache supplies another. -/
def ReadsFit (db : CScriptDB) (caches : List ScriptCache) (id : Bytes) : Prop :=
  (∀ c ∈ caches, StopFitsIn c id) ∧
    (db.getData (scriptDataKey id []) = none ∨ Supplies caches id → StopFits (fun key => db.getData key ≠ none) id)

/-! ## Keys -/

theorem dataKeyPrefix_append (id key : Bytes) : dataKeyPrefix id ++ key = scriptDataKey id key := by
  simp [dataKeyPrefix, scriptDataKey]

theorem length_dataKeyPrefix {id : Bytes} (hid : id.length = 6) : (dataKeyPrefix id).length = 11 := by
  simp [dataKeyPrefix, dataPrefix, hid]

theorem scriptDataKey_strictMono (id : Bytes) : StrictMono (scriptDataKey id) := by
  intro j k hlt
  rw [← dataKeyPrefix_append, ← dataKeyPrefix_append]
  exact append_lt_append.mpr hlt

theorem scriptDataKey_lt {id j k : Bytes} : scriptDataKey id j < scriptDataKey id k ↔ j < k :=
  (scriptDataKey_strictMono id).lt_iff_lt

theorem prefix_scriptDataKey (id key : Bytes) : dataKeyPrefix id <+: scriptDataKey id key :=
  ⟨key, dataKeyPrefix_append id key⟩

theorem scriptDataKey_drop {id : Bytes} (hid : id.length = 6) (key : Bytes) :
    (scriptDataKey id key).drop 11 = key := by
  rw [← dataKeyPrefix_append, ← length_dataKeyPrefix hid, List.drop_left]

theorem scriptDataKey_of_prefix {id key : Bytes} (hid : id.length = 6) (h : dataKeyPrefix id <+: key) :
    scriptDataKey id (key.drop 11) = key := by
  obtain ⟨k, rfl⟩ := h
  rw [dataKeyPrefix_append, scriptDataKey_drop hid]

theorem take_eq_dataKeyPrefix {id key : Bytes} (hid : id.length = 6) :
    key.take 11 = dataKeyPrefix id ↔ dataKeyPrefix id <+: key := by
  rw [List.prefix_iff_eq_take, length_dataKeyPrefix hid, eq_comm]

theorem le_of_dataKeyPrefix {id key : Bytes} (h : dataKeyPrefix id <+: key) : dataKeyPrefix id ≤ key := by
  obtain ⟨k, rfl⟩ := h
  exact List.le_append_left

/-! ## A tail of the stored keys -/

/-- The stored keys from somewhere among the script's data on. -/
structure Tail (stored : Bytes → Prop) (id : Bytes) (l : List Bytes) : Prop where
  ascending : l.Pairwise (· < ·)
  held : ∀ key ∈ l, stored key
  above : ∀ key ∈ l, dataKeyPrefix id ≤ key
  stop : ∀ key, stored key → dataKeyPrefix id < key → ¬ dataKeyPrefix id <+: key → key ∈ l

/-- The first key of a list that is not one of the script's data has all the bytes compared. -/
def FitsIn (id : Bytes) (l : List Bytes) : Prop :=
  ∀ key ∈ l, ¬ dataKeyPrefix id <+: key → (∀ j ∈ l, ¬ dataKeyPrefix id <+: j → key ≤ j) → 11 ≤ key.length

section
variable {stored : Bytes → Prop} {id : Bytes} {l : List Bytes}

theorem Tail.fits_iff (h : Tail stored id l) : FitsIn id l ↔ StopFits stored id := by
  constructor
  · intro hfit key hkey hlt hno hmin
    refine hfit key (h.stop key hkey hlt hno) hno fun j hj hjno => ?_
    refine hmin j (h.held j hj) (lt_of_le_of_ne (h.above j hj) ?_) hjno
    rintro rfl
    exact hjno (List.prefix_refl _)
  · intro hfit key hkey hno hmin
    refine hfit key (h.held key hkey) (lt_of_le_of_ne (h.above key hkey) ?_) hno fun j hj hlt hjno => ?_
    · rintro rfl
      exact hno (List.prefix_refl _)
    · exact hmin j (h.stop j hj hlt hjno) hjno

theorem FitsIn.tail {key : Bytes} (h : FitsIn id (key :: l)) (hbegins : dataKeyPrefix id <+: key) : FitsIn id l := by
  intro j hj hno hmin
  refine h j (List.mem_cons_of_mem _ hj) hno fun k hk hkno => ?_
  rcases List.mem_cons.mp hk with rfl | hk
  · exact absurd hbegins hkno
  · exact hmin k hk hkno

/-- A key without the beginning ends the script's data. -/
theorem not_prefix_of_stop {key : Bytes} (hasc : (key :: l).Pairwise (· < ·)) (hle : dataKeyPrefix id ≤ key)
    (hno : ¬ dataKeyPrefix id <+: key) : ∀ j ∈ key :: l, ¬ dataKeyPrefix id <+: j := by
  rintro j hj ⟨k, rfl⟩
  have hlt := append_lt_of_not_prefix hle hno k
  rcases List.mem_cons.mp hj with rfl | hj
  · exact lt_irrefl _ hlt
  · exact lt_asymm hlt ((List.pairwise_cons.mp hasc).1 _ hj)

theorem FitsIn.head {key : Bytes} (h : FitsIn id (key :: l)) (hasc : (key :: l).Pairwise (· < ·))
    (hno : ¬ dataKeyPrefix id <+: key) : 11 ≤ key.length := by
  refine h key List.mem_cons_self hno fun j hj _ => ?_
  rcases List.mem_cons.mp hj with rfl | hj
  · exact le_rfl
  · exact le_of_lt ((List.pairwise_cons.mp hasc).1 j hj)

theorem FitsIn.of_head {key : Bytes} (hlen : 11 ≤ key.length) (hno : ¬ dataKeyPrefix id <+: key)
    (hasc : (key :: l).Pairwise (· < ·)) : FitsIn id (key :: l) := by
  intro j hj _ hmin
  rcases List.mem_cons.mp hj with rfl | hj
  · exact hlen
  · exact absurd ((List.pairwise_cons.mp hasc).1 j hj) (not_lt.mpr (hmin key List.mem_cons_self hno))

theorem FitsIn.cons {key : Bytes} (h : FitsIn id l) (hbegins : dataKeyPrefix id <+: key) : FitsIn id (key :: l) := by
  intro j hj hno hmin
  rcases List.mem_cons.mp hj with rfl | hj
  · exact absurd hbegins hno
  · exact h j hj hno fun k hk hkno => hmin k (List.mem_cons_of_mem _ hk) hkno

/-! ## The search in a cache -/

variable {c : ScriptCache}

/-- A data key of the script with a value. -/
def isData (c : ScriptCache) (id key : Bytes) : Bool :=
  (dataKeyPrefix id).isPrefixOf key && decide ((c.lookup key).getD [] ≠ [])

theorem isData_iff {key : Bytes} :
    isData c id key = true ↔ dataKeyPrefix id <+: key ∧ (c.lookup key).getD [] ≠ [] := by
  simp [isData]

theorem ownData_eq (hid : id.length = 6) (hasc : l.Pairwise (· < ·)) (hle : ∀ key ∈ l, dataKeyPrefix id ≤ key)
    (hfit : (∃ key ∈ l, isData c id key = true) ∨ FitsIn id l) :
    ownData c (dataKeyPrefix id) l = .ok ((l.find? (isData c id)).map fun key => (key, (c.lookup key).getD [])) := by
  induction l with
  | nil => rfl
  | cons key l ih =>
    rw [ownData, length_dataKeyPrefix hid]
    by_cases hbegins : dataKeyPrefix id <+: key
    · have hlen : ¬ key.length < 11 := by
        have hle := hbegins.length_le
        rw [length_dataKeyPrefix hid] at hle
        omega
      rw [if_neg hlen, if_pos ((take_eq_dataKeyPrefix hid).mpr hbegins)]
      by_cases hv : (c.lookup key).getD [] = []
      · have hdead : ¬ isData c id key = true := fun h => (isData_iff.mp h).2 hv
        rw [if_pos hv, List.find?_cons_of_neg hdead]
        refine ih (List.pairwise_cons.mp hasc).2 (fun j hj => hle j (List.mem_cons_of_mem _ hj)) ?_
        refine hfit.imp ?_ fun hfit => hfit.tail hbegins
        rintro ⟨j, hj, hdata⟩
        rcases List.mem_cons.mp hj with rfl | hj
        · exact absurd hdata hdead
        · exact ⟨j, hj, hdata⟩
      · rw [if_neg hv, List.find?_cons_of_pos (isData_iff.mpr ⟨hbegins, hv⟩)]
        rfl
    · have hdead : ∀ j ∈ key :: l, ¬ isData c id j = true := fun j hj hdata =>
        not_prefix_of_stop hasc (hle key List.mem_cons_self) hbegins j hj (isData_iff.mp hdata).1
      have hlen : 11 ≤ key.length := by
        rcases hfit with ⟨j, hj, hdata⟩ | hfit
        · exact absurd hdata (hdead j hj)
        · exact hfit.head hasc hbegins
      rw [if_neg (by omega), if_neg (mt (take_eq_dataKeyPrefix hid).mp hbegins), List.find?_eq_none.mpr hdead]
      rfl

/-- A search that finds nothing has looked at the key after the script's data. -/
theorem fits_of_ownData (hid : id.length = 6) (hasc : l.Pairwise (· < ·))
    (h : ownData c (dataKeyPrefix id) l = .ok none) : FitsIn id l := by
  induction l with
  | nil => exact fun key hkey => absurd hkey List.not_mem_nil
  | cons key l ih =>
    rw [ownData, length_dataKeyPrefix hid] at h
    by_cases hlen : key.length < 11
    · rw [if_pos hlen] at h
      cases h
    · rw [if_neg hlen] at h
      by_cases hbegins : dataKeyPrefix id <+: key
      · rw [if_pos ((take_eq_dataKeyPrefix hid).mpr hbegins)] at h
        by_cases hv : (c.lookup key).getD [] = []
        · rw [if_pos hv] at h
          exact (ih (List.pairwise_cons.mp hasc).2 h).cons hbegins
        · rw [if_neg hv] at h
          cases h
      · exact .of_head (by omega) hbegins hasc

/-- Whatever the search finds is one of the script's data keys. -/
theorem ownData_prefix (hid : id.length = 6) {e : Bytes × Bytes}
    (h : ownData c (dataKeyPrefix id) l = .ok (some e)) :
    e.1 ∈ l ∧ dataKeyPrefix id <+: e.1 ∧ e.2 = (c.lookup e.1).getD [] ∧ e.2 ≠ [] := by
  induction l with
  | nil => cases h
  | cons key l ih =>
    rw [ownData, length_dataKeyPrefix hid] at h
    split at h
    · cases h
    · split at h
      · next hbegins =>
        split at h
        · obtain ⟨hmem, hrest⟩ := ih h
          exact ⟨List.mem_cons_of_mem _ hmem, hrest⟩
        · next hv =>
          obtain rfl := Option.some.inj (Except.ok.inj h)
          exact ⟨List.mem_cons_self, (take_eq_dataKeyPrefix hid).mp hbegins, rfl, hv⟩
      · cases h

end

/-! ## The answers of one level -/

section
variable {db : CScriptDB} {c : ScriptCache} {id : Bytes} {l : List Bytes} {q : Option Bytes}

/-- The data of the script in the database. -/
def dbDataAt (db : CScriptDB) (id key : Bytes) : Option Bytes := db.getData (scriptDataKey id key)

theorem ownDataAt_nil (c : ScriptCache) (id : Bytes) : ownDataAt c id [] = none := if_pos rfl

theorem ownDataAt_of_none {key : Bytes} (h : c.lookup (scriptDataKey id key) = none) : ownDataAt c id key = none := by
  rw [ownDataAt, h]
  exact ite_self _

theorem ownDataAt_ne {key v : Bytes} (h : ownDataAt c id key = some v) : v ≠ [] := by
  unfold ownDataAt at h
  split at h
  · cases h
  · obtain ⟨w, _, hw⟩ := Option.bind_eq_some_iff.mp h
    exact liveValue_ne hw

theorem ownDataAt_of_some {key v : Bytes} (hkey : key ≠ []) (h : c.lookup (scriptDataKey id key) = some v) :
    ownDataAt c id key = liveValue v := by
  rw [ownDataAt, if_neg hkey, h]
  rfl

theorem ownDataAt_eq (c : ScriptCache) (id : Bytes) {key : Bytes} (hkey : key ≠ []) :
    ownDataAt c id key = if isData c id (scriptDataKey id key) = true
      then some ((c.lookup (scriptDataKey id key)).getD []) else none := by
  have hdata : isData c id (scriptDataKey id key) = true ↔ (c.lookup (scriptDataKey id key)).getD [] ≠ [] :=
    isData_iff.trans (and_iff_right (prefix_scriptDataKey id key))
  rw [ownDataAt, if_neg hkey]
  cases hlookup : c.lookup (scriptDataKey id key) with
  | none =>
    rw [hlookup] at hdata
    rw [if_neg (by rw [hdata]; simp)]
    rfl
  | some v =>
    rw [hlookup] at hdata
    by_cases hv : v = []
    · subst hv
      rw [if_neg (by rw [hdata]; simp)]
      rfl
    · rw [if_pos (hdata.mpr hv)]
      exact liveValue_of_ne hv

/-- The least data key by what follows the beginning, from the least one by key. -/
theorem least_by_data_key (hid : id.length = 6) {m : Bytes → Option Bytes} {P : Bytes → Prop}
    {r : Option (Bytes × Bytes)} (h : Least m P r) (hr : ∀ e, r = some e → dataKeyPrefix id <+: e.1) :
    Least (fun key => m (scriptDataKey id key)) (fun key => P (scriptDataKey id key))
      (r.map fun e => (e.1.drop 11, e.2)) := by
  have hdrop : ∀ key, (fun k : Bytes => k.drop 11) (scriptDataKey id key) = key := scriptDataKey_drop hid
  exact h.comap (scriptDataKey_strictMono id) hdrop fun e he => ⟨e.1.drop 11, scriptDataKey_of_prefix hid (hr e he)⟩

theorem upper_tail (c : ScriptCache) (id key : Bytes) :
    Tail (fun key => c.lookup key ≠ none) id (upperBound (dataKeyPrefix id ++ key) (keysOf c)) := by
  have hmem : ∀ k, k ∈ upperBound (dataKeyPrefix id ++ key) (keysOf c) ↔
      k ∈ keysOf c ∧ dataKeyPrefix id ++ key < k := fun k => mem_dropWhile_le (keysOf_ascending c)
  refine ⟨pairwise_dropWhile _ (keysOf_ascending c), fun k hk => mem_keysOf.mp ((hmem k).mp hk).1, fun k hk => ?_,
    fun k hk hlt hno => ?_⟩
  · exact le_trans List.le_append_left (le_of_lt ((hmem k).mp hk).2)
  · exact (hmem k).mpr ⟨mem_keysOf.mpr hk, append_lt_of_not_prefix (le_of_lt hlt) hno key⟩

/-- The search of a cache behind a question ends at data of its own, or at a key that has all the bytes
compared. -/
def OwnFits (c : ScriptCache) (id : Bytes) (q : Option Bytes) : Prop :=
  (∃ key, After q key ∧ ownDataAt c id key ≠ none) ∨ StopFitsIn c id

/-- Data of the cache's own behind a question is among the keys it goes through. -/
theorem isData_of_ownDataAt {key : Bytes} (hafter : After q key) (h : ownDataAt c id key ≠ none) :
    scriptDataKey id key ∈ upperBound (dataKeyPrefix id ++ q.getD []) (keysOf c) ∧
      isData c id (scriptDataKey id key) = true := by
  have hkey : key ≠ [] := by
    rintro rfl
    exact h (ownDataAt_nil c id)
  have hdata : isData c id (scriptDataKey id key) = true := by
    by_contra hno
    exact h ((ownDataAt_eq c id hkey).trans (if_neg hno))
  have hlt : q.getD [] < key := by
    cases q with
    | none => exact nil_lt_iff.mpr hkey
    | some k => exact hafter
  refine ⟨(mem_dropWhile_le (keysOf_ascending c)).mpr ⟨mem_keysOf.mpr ?_, ?_⟩, hdata⟩
  · intro hnone
    exact h (ownDataAt_of_none hnone)
  · rw [dataKeyPrefix_append]
    exact scriptDataKey_lt.mpr hlt

/-- The cache finds the first data key it supplies itself. -/
theorem ownData_least (hid : id.length = 6) {q : Option Bytes} (hfits : OwnFits c id q) :
    ∃ r, Least (ownDataAt c id) (After q) r ∧
      ownData c (dataKeyPrefix id) (upperBound (dataKeyPrefix id ++ q.getD []) (keysOf c))
        = .ok (r.map fun e => (scriptDataKey id e.1, e.2)) := by
  set l := upperBound (dataKeyPrefix id ++ q.getD []) (keysOf c) with hl
  have htail : Tail (fun key => c.lookup key ≠ none) id l := upper_tail c id _
  have hown : ownData c (dataKeyPrefix id) l = _ :=
    ownData_eq hid htail.ascending htail.above (hfits.imp
      (fun ⟨key, hafter, hkey⟩ => ⟨scriptDataKey id key, isData_of_ownDataAt hafter hkey⟩) htail.fits_iff.mpr)
  set get : Bytes → Bytes := fun key => (c.lookup key).getD [] with hget
  set m : Bytes → Option Bytes := fun key => if isData c id key = true then some (get key) else none with hm
  have hleast : Least m (fun key => dataKeyPrefix id ++ q.getD [] < key) ((l.find? (isData c id)).map fun key => (key, get key)) := by
    refine least_find htail.ascending (fun key hkey => ?_) fun key hkey _ => ((mem_dropWhile_le (keysOf_ascending c)).mp hkey).2
    by_cases hdata : isData c id key = true
    · have hstored : key ∈ keysOf c := by
        rw [mem_keysOf]
        intro hnone
        exact (isData_iff.mp hdata).2 (by rw [hnone]; rfl)
      have hmem : key ∈ l := (mem_dropWhile_le (keysOf_ascending c)).mpr ⟨hstored, hkey⟩
      simp [hm, hdata, hmem]
    · simp [hm, hdata]
  have hbegins : ∀ e, (l.find? (isData c id)).map (fun key => (key, get key)) = some e → dataKeyPrefix id <+: e.1 := by
    intro e he
    obtain ⟨key, hfind, rfl⟩ := Option.map_eq_some_iff.mp he
    exact (isData_iff.mp (List.find?_some hfind)).1
  have hkey := least_by_data_key hid hleast hbegins
  have hlive : Least (ownDataAt c id) (fun key => q.getD [] < key)
      (((l.find? (isData c id)).map fun key => (key, get key)).map fun e => (e.1.drop 11, e.2)) := by
    refine (hkey.congr_set fun key => ?_).congr fun key hlt => ?_
    · show q.getD [] < key ↔ dataKeyPrefix id ++ q.getD [] < scriptDataKey id key
      rw [dataKeyPrefix_append, scriptDataKey_lt]
    · have hne : key ≠ [] := by
        rintro rfl
        exact not_lt_nil _ hlt
      exact ownDataAt_eq c id hne
  refine ⟨_, hlive.widen (fun key hlt => ?_) fun key _ hle => ?_, ?_⟩
  · cases q with
    | none => trivial
    | some k => exact hlt
  · have hnil : key = [] := by
      cases q with
      | none =>
        by_contra hne
        exact hle (nil_lt_iff.mpr hne)
      | some k => contradiction
    rw [hnil, ownDataAt_nil]
  · rw [hown, Option.map_map]
    cases hfind : l.find? (isData c id) with
    | none => rfl
    | some key =>
      have hdrop := scriptDataKey_of_prefix hid (isData_iff.mp (List.find?_some hfind)).1
      show Except.ok (some (key, get key)) = .ok (some (scriptDataKey id (key.drop 11), get key))
      rw [hdrop]

end

/-! ### The database -/

section
variable {db : CScriptDB} {id : Bytes} {l : List Bytes}

theorem dataCursor_eq (hid : id.length = 6) {cDSKeySet : Bytes} (hset : cDSKeySet.take 11 = dataKeyPrefix id)
    (hasc : l.Pairwise (· < ·)) (hle : ∀ key ∈ l, dataKeyPrefix id ≤ key)
    (hfit : (∃ key ∈ l, dataKeyPrefix id <+: key) ∨ FitsIn id l) :
    dataCursor cDSKeySet 0 l = .ok (l.find? fun key => (dataKeyPrefix id).isPrefixOf key) := by
  cases l with
  | nil => rfl
  | cons key l =>
    rw [dataCursor, hset]
    by_cases hbegins : dataKeyPrefix id <+: key
    · have hlen := hbegins.length_le
      rw [length_dataKeyPrefix hid] at hlen
      rw [if_neg (by omega), if_pos ((take_eq_dataKeyPrefix hid).mpr hbegins),
        List.find?_cons_of_pos (List.isPrefixOf_iff_prefix.mpr hbegins)]
    · have hstop := not_prefix_of_stop hasc (hle key List.mem_cons_self) hbegins
      have hlen : 11 ≤ key.length := by
        rcases hfit with ⟨j, hj, hdata⟩ | hfit
        · exact absurd hdata (hstop j hj)
        · exact hfit.head hasc hbegins
      have hnone : (key :: l).find? (fun key => (dataKeyPrefix id).isPrefixOf key) = none :=
        List.find?_eq_none.mpr fun j hj hj' => hstop j hj (List.isPrefixOf_iff_prefix.mp hj')
      rw [if_neg (by omega), if_neg (mt (take_eq_dataKeyPrefix hid).mp hbegins), hnone]

/-- A cursor that finds nothing has looked at the key after the script's data. -/
theorem fits_of_dataCursor (hid : id.length = 6) {cDSKeySet : Bytes} (hset : cDSKeySet.take 11 = dataKeyPrefix id)
    (hasc : l.Pairwise (· < ·)) (h : dataCursor cDSKeySet 0 l = .ok none) : FitsIn id l := by
  cases l with
  | nil => exact fun key hkey => absurd hkey List.not_mem_nil
  | cons key l =>
    rw [dataCursor, hset] at h
    split at h
    · cases h
    · split at h
      · cases h
      · next hlen hbegins =>
        exact .of_head (by omega) (mt (take_eq_dataKeyPrefix hid).mpr hbegins) hasc

/-- The keys that the cursor goes through behind a question. -/
def dbTail (db : CScriptDB) (id : Bytes) : Option Bytes → List Bytes
  | none => seek (dataKeyPrefix id) (dbKeys db)
  | some key => upperBound (scriptDataKey id key) (dbKeys db)

theorem mem_dbTail {q : Option Bytes} {key : Bytes} :
    key ∈ dbTail db id q ↔ key ∈ dbKeys db ∧ dataKeyPrefix id ≤ key ∧ ∀ k ∈ q, scriptDataKey id k < key := by
  cases q with
  | none =>
    rw [dbTail, seek, mem_dropWhile_lt (dbKeys_ascending db)]
    simp
  | some k =>
    rw [dbTail, upperBound, mem_dropWhile_le (dbKeys_ascending db)]
    constructor
    · rintro ⟨hmem, hlt⟩
      exact ⟨hmem, le_trans (le_of_dataKeyPrefix (prefix_scriptDataKey id k)) (le_of_lt hlt), by simpa using hlt⟩
    · rintro ⟨hmem, _, hlt⟩
      exact ⟨hmem, hlt k rfl⟩

theorem dbTail_tail (db : CScriptDB) (id : Bytes) (q : Option Bytes) :
    Tail (fun key => db.getData key ≠ none) id (dbTail db id q) := by
  refine ⟨?_, fun key hkey => mem_dbKeys.mp (mem_dbTail.mp hkey).1, fun key hkey => (mem_dbTail.mp hkey).2.1,
    fun key hkey hlt hno => mem_dbTail.mpr ⟨mem_dbKeys.mpr hkey, le_of_lt hlt, fun k _ => ?_⟩⟩
  · cases q with
    | none => exact pairwise_dropWhile _ (dbKeys_ascending db)
    | some k => exact pairwise_dropWhile _ (dbKeys_ascending db)
  · rw [← dataKeyPrefix_append]
    exact append_lt_of_not_prefix (le_of_lt hlt) hno k

theorem take_set (hid : id.length = 6) (key : Bytes) : (dataKeyPrefix id ++ key).take 11 = dataKeyPrefix id := by
  rw [← length_dataKeyPrefix hid, List.take_left]

/-- The database runs its cursor over those keys, except behind the empty key. -/
theorem dbGetScriptData_eq (hid : id.length = 6) {q : Option Bytes} (hq : q ≠ some []) :
    ∃ cDSKeySet : Bytes, cDSKeySet.take 11 = dataKeyPrefix id ∧ dbGetScriptData db id q
      = (dataCursor cDSKeySet 0 (dbTail db id q)).map fun key => key.map fun key => (key.drop 11, db.oldValue key) := by
  cases q with
  | none =>
    refine ⟨dataKeyPrefix id, ?_, rfl⟩
    have h := take_set hid []
    rwa [List.append_nil] at h
  | some key =>
    refine ⟨dataKeyPrefix id ++ key, take_set hid key, ?_⟩
    have hkey : key ≠ [] := fun h => hq (congrArg some h)
    unfold dbGetScriptData
    dsimp only
    rw [if_neg hkey, dbTail, ← dataKeyPrefix_append]
    by_cases hmem : dataKeyPrefix id ++ key ∈ dbKeys db
    · have hhave : db.haveData (dataKeyPrefix id ++ key) = true := Option.isSome_iff_ne_none.mpr (mem_dbKeys.mp hmem)
      have hlen : ¬ (dataKeyPrefix id ++ key).length < 11 := by
        rw [List.length_append, length_dataKeyPrefix hid]
        omega
      rw [if_pos hhave, seek, dropWhile_lt_of_mem (dbKeys_ascending db) hmem, dataCursor, if_neg hlen, if_pos rfl]
      rfl
    · have hhave : ¬ db.haveData (dataKeyPrefix id ++ key) = true := fun h =>
        hmem (mem_dbKeys.mpr (Option.isSome_iff_ne_none.mp h))
      rw [if_neg hhave, seek, dropWhile_lt_of_notMem hmem]
      rfl

/-- What the database answers is what its cursor finds. -/
theorem dbGetScriptData_ok (hid : id.length = 6) {q : Option Bytes} (hq : q ≠ some [])
    {r : Option (Bytes × Bytes)} (h : dbGetScriptData db id q = .ok r) :
    ∃ cDSKeySet found, cDSKeySet.take 11 = dataKeyPrefix id ∧
      dataCursor cDSKeySet 0 (dbTail db id q) = .ok found ∧
      r = found.map fun key => (key.drop 11, db.oldValue key) := by
  obtain ⟨cDSKeySet, hset, heq⟩ := @dbGetScriptData_eq db id hid q hq
  rw [heq] at h
  cases hcursor : dataCursor cDSKeySet 0 (dbTail db id q) with
  | error what =>
    rw [hcursor] at h
    cases h
  | ok found =>
    rw [hcursor] at h
    exact ⟨cDSKeySet, found, hset, hcursor, (Except.ok.inj h).symm⟩

/-- The cursor of the database behind a question meets data of the script, or a key that has all the
bytes compared. -/
def DbFits (db : CScriptDB) (id : Bytes) (q : Option Bytes) : Prop :=
  (∃ key, After q key ∧ dbDataAt db id key ≠ none) ∨ StopFits (fun key => db.getData key ≠ none) id

/-- The script's data behind a question is among the keys the cursor goes through. -/
theorem mem_dbTail_of_dbDataAt {q : Option Bytes} {key : Bytes} (hafter : After q key)
    (h : dbDataAt db id key ≠ none) : scriptDataKey id key ∈ dbTail db id q := by
  refine mem_dbTail.mpr ⟨mem_dbKeys.mpr h, le_of_dataKeyPrefix (prefix_scriptDataKey id key), ?_⟩
  rintro k rfl
  exact scriptDataKey_lt.mpr hafter

/-- The database answers every question but the one behind the empty key. -/
theorem dbGetScriptData_least (hid : id.length = 6) {q : Option Bytes} (hfits : DbFits db id q)
    (hq : q ≠ some []) :
    ∃ r, Least (dbDataAt db id) (After q) r ∧ dbGetScriptData db id q = .ok r := by
  obtain ⟨cDSKeySet, hset, heq⟩ := @dbGetScriptData_eq db id hid q hq
  set l := dbTail db id q with hl
  have htail : Tail (fun key => db.getData key ≠ none) id l := dbTail_tail db id q
  rw [dataCursor_eq hid hset htail.ascending htail.above (hfits.imp
    (fun ⟨key, hafter, hkey⟩ => ⟨_, mem_dbTail_of_dbDataAt hafter hkey, prefix_scriptDataKey id key⟩)
    htail.fits_iff.mpr)] at heq
  set p : Bytes → Bool := fun key => (dataKeyPrefix id).isPrefixOf key with hp
  set m : Bytes → Option Bytes := fun key => if p key = true then db.getData key else none with hm
  have hleast : Least m (fun key => ∀ k ∈ q, scriptDataKey id k < key)
      ((l.find? p).map fun key => (key, db.oldValue key)) := by
    refine least_find htail.ascending (fun key hkey => ?_) fun key hkey _ => (mem_dbTail.mp hkey).2.2
    by_cases hbegins : p key = true
    · have hmem : key ∈ l ↔ db.getData key ≠ none := by
        rw [hl, mem_dbTail, mem_dbKeys]
        exact and_iff_left ⟨le_of_dataKeyPrefix (List.isPrefixOf_iff_prefix.mp hbegins), hkey⟩
      simp only [hm, hbegins, if_true, hmem, and_true]
      cases hdata : db.getData key with
      | none => simp
      | some v => simp [CScriptDBViewCache.oldValue, hdata]
    · simp [hm, hbegins]
  have hr : ∀ e, (l.find? p).map (fun key => (key, db.oldValue key)) = some e → dataKeyPrefix id <+: e.1 := by
    intro e he
    obtain ⟨key, hfind, rfl⟩ := Option.map_eq_some_iff.mp he
    exact List.isPrefixOf_iff_prefix.mp (List.find?_some hfind)
  have hkey := least_by_data_key hid hleast hr
  refine ⟨_, (hkey.congr_set fun key => ?_).congr fun key _ => ?_, heq.trans ?_⟩
  · cases q with
    | none => simp [After]
    | some k => simp [After, scriptDataKey_lt]
  · exact (if_pos (List.isPrefixOf_iff_prefix.mpr (prefix_scriptDataKey id key))).symm
  · rw [Option.map_map]
    rfl

end

/-! ## One cache over the answers of its base -/

section
variable {db : CScriptDB} {c : ScriptCache} {base caches : List ScriptCache} {id : Bytes} {q : Option Bytes}
  {b : Bytes → Option Bytes}

/-- As many rounds as any of the loops takes: one more than there are keys. -/
def rounds (db : CScriptDB) (caches : List ScriptCache) : ℕ :=
  (dbKeys db).length + (caches.map fun c => c.keys.length).sum + 1

theorem rounds_cons (db : CScriptDB) (c : ScriptCache) (base : List ScriptCache) :
    rounds db base ≤ rounds db (c :: base) := by
  unfold rounds
  rw [List.map_cons, List.sum_cons]
  omega

/-- With enough rounds the stack answers a question as the map `b` does. -/
def Returns (db : CScriptDB) (id : Bytes) (caches : List ScriptCache) (b : Bytes → Option Bytes)
    (q : Option Bytes) : Prop :=
  ∃ r, Least b (After q) r ∧ ∀ n, rounds db caches ≤ n → getScriptData db id n caches q = .ok r

theorem Returns.congr {b' : Bytes → Option Bytes} (h : Returns db id caches b q)
    (hb : ∀ k, After q k → b' k = b k) : Returns db id caches b' q := by
  obtain ⟨r, hr, hn⟩ := h
  exact ⟨r, hr.congr hb, hn⟩

/-- What the cache makes of its base: its own entry where it has one. -/
def merged (c : ScriptCache) (id : Bytes) (b : Bytes → Option Bytes) (key : Bytes) : Option Bytes :=
  if c.lookup (scriptDataKey id key) = none then b key else ownDataAt c id key

theorem merged_of_own {key v : Bytes} (h : ownDataAt c id key = some v) : merged c id b key = some v := by
  unfold merged
  split
  · next hnone =>
    rw [ownDataAt_of_none hnone] at h
    cases h
  · exact h

theorem merged_within (c : ScriptCache) (id : Bytes) (b : Bytes → Option Bytes) :
    Within (merged c id b) (ownDataAt c id) b := by
  intro key hown hb
  unfold merged
  split
  · exact hb
  · exact hown

section
variable {vchKey : Bytes} {own : Option (Bytes × Bytes)} {ask : Option Bytes → Except Stuck (Option (Bytes × Bytes))}
  {i : ℕ} {k v : Bytes}

theorem baseLoop_end (h : ask q = .ok none) (hv : ∀ e, own = some e → e.2 ≠ []) :
    baseLoop c vchKey own ask (i + 1) q = .ok (own.map fun e => (e.1.drop 11, e.2)) := by
  unfold baseLoop
  rw [h]
  cases own with
  | none => rfl
  | some e => exact if_neg (hv e rfl)

theorem baseLoop_found (h : ask q = .ok (some (k, v))) (hown : ∀ e, own = some e → vchKey ++ k < e.1)
    (hnone : c.lookup (vchKey ++ k) = none) : baseLoop c vchKey own ask (i + 1) q = .ok (some (k, v)) := by
  unfold baseLoop
  rw [h]
  cases own with
  | none => exact if_pos hnone
  | some e =>
    dsimp only
    rw [if_pos (hown e rfl), if_pos hnone]

theorem baseLoop_again (h : ask q = .ok (some (k, v))) (hown : ∀ e, own = some e → vchKey ++ k < e.1)
    (hsome : c.lookup (vchKey ++ k) ≠ none) :
    baseLoop c vchKey own ask (i + 1) q = baseLoop c vchKey own ask i (some k) := by
  rw [baseLoop.eq_def]
  dsimp only
  rw [h]
  cases own with
  | none => exact if_neg hsome
  | some e =>
    dsimp only
    rw [if_pos (hown e rfl), if_neg hsome]

theorem baseLoop_own {e : Bytes × Bytes} (h : ask q = .ok (some (k, v))) (hge : ¬ vchKey ++ k < e.1)
    (hv : e.2 ≠ []) : baseLoop c vchKey (some e) ask (i + 1) q = .ok (some (e.1.drop 11, e.2)) := by
  unfold baseLoop
  rw [h]
  dsimp only
  rw [if_neg hge, if_neg hv]

end

/-- A key of the base that the cache passes over: up to it the two together show nothing. -/
structure Passed (c : ScriptCache) (id : Bytes) (b : Bytes → Option Bytes) (q : Option Bytes) (k : Bytes) :
    Prop where
  after : After q k
  shown : b k ≠ none
  hidden : ∀ j, After q j → j ≤ k → merged c id b j = none

theorem Passed.trans {j k : Bytes} (h : Passed c id b q j) (h' : Passed c id b (some j) k) : Passed c id b q k where
  after := h.after.mono (le_of_lt h'.after)
  shown := h'.shown
  hidden i hi hle := by
    rcases le_or_gt i j with hij | hij
    · exact h.hidden i hi hij
    · exact h'.hidden i hij hle

theorem Passed.behind {j k : Bytes} (h : Passed c id b q k) (hj : After q j) (hlt : j < k) :
    Passed c id b (some j) k := ⟨hlt, h.shown, fun i hi hle => h.hidden i (hj.mono (le_of_lt hi)) hle⟩

/-- Up to a key that is passed over the cache has no data of its own. -/
theorem Passed.own {j k : Bytes} (h : Passed c id b q k) (hj : After q j) (hle : j ≤ k) : ownDataAt c id j = none := by
  by_contra hne
  obtain ⟨v, hv⟩ := Option.ne_none_iff_exists'.mp hne
  cases (merged_of_own hv).symm.trans (h.hidden j hj hle)

/-- The first answer of the base is passed over where the cache has an entry for it, and no data of its
own before it. -/
theorem passed_first {r : Option (Bytes × Bytes)} {k v : Bytes} (hrb : Least b (After q) (some (k, v)))
    (hown : Least (ownDataAt c id) (After q) r) (hbefore : ∀ e, r = some e → k < e.1)
    (hlookup : c.lookup (scriptDataKey id k) ≠ none) : Passed c id b q k := by
  obtain ⟨hafter, hk, hmin⟩ := hrb
  have hownNone : ∀ j, After q j → j ≤ k → ownDataAt c id j = none := by
    intro j hj hle
    cases r with
    | none => exact hown j hj
    | some e => exact hown.2.2 j hj (lt_of_le_of_lt hle (hbefore e rfl))
  refine ⟨hafter, by rw [hk]; simp, fun j hj hle => ?_⟩
  rcases lt_or_eq_of_le hle with hlt | rfl
  · exact merged_within c id b j (hownNone j hj hle) (hmin j hj hlt)
  · rw [merged, if_neg hlookup]
    exact hownNone j hj le_rfl

/-- The data of the cache's own behind a key that comes before all of it. -/
theorem least_behind {m : Bytes → Option Bytes} {r : Option (Bytes × Bytes)} {k : Bytes} (hafter : After q k)
    (hown : Least m (After q) r) (hbefore : ∀ e, r = some e → k < e.1) : Least m (After (some k)) r := by
  cases r with
  | none => exact fun j hj => hown j (hafter.mono (le_of_lt hj))
  | some e => exact ⟨hbefore e rfl, hown.2.1, fun j hj hlt => hown.2.2 j (hafter.mono (le_of_lt hj)) hlt⟩

/-- The loop of one cache, when the base answers as `b` does all along it. -/
theorem baseLoop_returns (hid : id.length = 6) {r : Option (Bytes × Bytes)} {B : Finset Bytes}
    (hB : ∀ k, b k ≠ none → k ∈ B)
    (hq : Returns db id base b q) (hchain : ∀ k, Passed c id b q k → Returns db id base b (some k))
    (hown : Least (ownDataAt c id) (After q) r) :
    ∃ r', Least (merged c id b) (After q) r' ∧ ∀ n i, rounds db base ≤ n → (B.filter (After q)).card < i →
      baseLoop c (dataKeyPrefix id) (r.map fun e => (scriptDataKey id e.1, e.2)) (getScriptData db id n base) i q
        = .ok r' := by
  induction hcard : (B.filter (After q)).card using Nat.strong_induction_on generalizing q with
  | _ m hm =>
    subst hcard
    obtain ⟨rb, hrb, hN⟩ := hq
    have hwithin := merged_within c id b
    have hvalue : ∀ e, r.map (fun e => (scriptDataKey id e.1, e.2)) = some e → e.2 ≠ [] := by
      intro e he
      obtain ⟨f, rfl, rfl⟩ := Option.map_eq_some_iff.mp he
      exact ownDataAt_ne hown.2.1
    have hdrop : (r.map fun e => (scriptDataKey id e.1, e.2)).map (fun e => (e.1.drop 11, e.2)) = r := by
      rw [Option.map_map]
      cases r with
      | none => rfl
      | some e =>
        show some ((scriptDataKey id e.1).drop 11, e.2) = some e
        rw [scriptDataKey_drop hid]
    cases rb with
    | none =>
      refine ⟨r, ?_, fun n i hn hi => ?_⟩
      · cases r with
        | none => exact Least.of_neither hwithin hown hrb
        | some e => exact Least.of_upper hwithin hown (merged_of_own hown.2.1) hrb fun _ h => by cases h
      · obtain ⟨i, rfl⟩ := Nat.exists_eq_add_one_of_ne_zero (Nat.ne_of_gt (Nat.zero_lt_of_lt hi))
        rw [baseLoop_end (hN n hn) hvalue, hdrop]
    | some f =>
      obtain ⟨k, v⟩ := f
      by_cases hbefore : ∀ e, r = some e → k < e.1
      · have hkeys : ∀ e, r.map (fun e => (scriptDataKey id e.1, e.2)) = some e → dataKeyPrefix id ++ k < e.1 := by
          intro e he
          obtain ⟨f, rfl, rfl⟩ := Option.map_eq_some_iff.mp he
          rw [dataKeyPrefix_append]
          exact scriptDataKey_lt.mpr (hbefore f rfl)
        by_cases hlookup : c.lookup (scriptDataKey id k) = none
        · refine ⟨some (k, v), ?_, fun n i hn hi => ?_⟩
          · refine Least.of_lower hwithin hrb ?_ hown fun e he => le_of_lt (hbefore e he)
            rw [merged, if_pos hlookup]
            exact hrb.2.1
          · obtain ⟨i, rfl⟩ := Nat.exists_eq_add_one_of_ne_zero (Nat.ne_of_gt (Nat.zero_lt_of_lt hi))
            rw [← dataKeyPrefix_append] at hlookup
            exact baseLoop_found (hN n hn) hkeys hlookup
        · -- a key that the cache has changed: the base is asked again behind it
          have hpassed := passed_first hrb hown hbefore hlookup
          have hfewer := card_after_lt hpassed.after (hB k hpassed.shown)
          obtain ⟨r', hr', hM⟩ := hm _ hfewer (hchain k hpassed) (fun j hj => hchain j (hpassed.trans hj))
            (least_behind hpassed.after hown hbefore) rfl
          refine ⟨r', hr'.skip (fun j hj => hpassed.after.mono (le_of_lt hj)) hpassed.hidden, fun n i hn hi => ?_⟩
          obtain ⟨i, rfl⟩ := Nat.exists_eq_add_one_of_ne_zero (Nat.ne_of_gt (Nat.zero_lt_of_lt hi))
          rw [← dataKeyPrefix_append] at hlookup
          rw [baseLoop_again (hN n hn) hkeys hlookup]
          exact hM n i hn (by omega)
      · obtain ⟨e, rfl, hge⟩ : ∃ e, r = some e ∧ ¬ k < e.1 := by
          by_contra hno
          refine hbefore fun e he => ?_
          by_contra hlt
          exact hno ⟨e, he, hlt⟩
        refine ⟨some e, Least.of_upper hwithin hown (merged_of_own hown.2.1) hrb ?_, fun n i hn hi => ?_⟩
        · rintro f hf
          obtain rfl := Option.some.inj hf
          exact not_lt.mp hge
        · obtain ⟨i, rfl⟩ := Nat.exists_eq_add_one_of_ne_zero (Nat.ne_of_gt (Nat.zero_lt_of_lt hi))
          have hkey : ¬ dataKeyPrefix id ++ k < scriptDataKey id e.1 := by
            rw [dataKeyPrefix_append]
            exact mt scriptDataKey_lt.mp hge
          refine (baseLoop_own (hN n hn) hkey (hvalue _ rfl)).trans ?_
          dsimp only
          rw [scriptDataKey_drop hid]

/-- A cache over a base that answers as `b` does. -/
theorem returns_cons (hid : id.length = 6) (hfits : OwnFits c id q)
    (hB : ∃ B : Finset Bytes, B.card < rounds db base ∧ ∀ k, b k ≠ none → k ∈ B)
    (hq : Returns db id base b q) (hchain : ∀ k, Passed c id b q k → Returns db id base b (some k)) :
    Returns db id (c :: base) (merged c id b) q := by
  obtain ⟨B, hcard, hB⟩ := hB
  obtain ⟨r, hown, hownEq⟩ := ownData_least hid hfits
  obtain ⟨r', hr', hN⟩ := baseLoop_returns hid hB hq hchain hown
  refine ⟨r', hr', fun n hn => ?_⟩
  have hbase := le_trans (rounds_cons db c base) hn
  rw [getScriptData, hownEq]
  exact hN n n hbase (lt_of_le_of_lt (Finset.card_filter_le _ _) (lt_of_lt_of_le hcard hbase))

end

/-! ## What a stack holds -/

section
variable {db : CScriptDB} {c : ScriptCache} {base caches : List ScriptCache} {id : Bytes} {q : Option Bytes}

/-- The data of the script that the stack holds. -/
def dataAt (db : CScriptDB) (caches : List ScriptCache) (id key : Bytes) : Option Bytes :=
  data db caches (scriptDataKey id key)

theorem dataAt_of_none {key : Bytes} (h : c.lookup (scriptDataKey id key) = none) :
    dataAt db (c :: base) id key = dataAt db base id key := data_cons_of_none h

theorem dataAt_of_some {key : Bytes} (hkey : key ≠ []) (h : c.lookup (scriptDataKey id key) ≠ none) :
    dataAt db (c :: base) id key = ownDataAt c id key := by
  obtain ⟨v, hv⟩ := Option.ne_none_iff_exists'.mp h
  rw [ownDataAt_of_some hkey hv]
  exact data_cons_of_some hv

/-- Above the empty key a cache shows what it holds. -/
theorem merged_dataAt {key : Bytes} (hkey : key ≠ []) :
    merged c id (dataAt db base id) key = dataAt db (c :: base) id key := by
  unfold merged
  split
  · next h => exact (dataAt_of_none h).symm
  · next h => exact (dataAt_of_some hkey h).symm

theorem dataAt_unknown {key : Bytes} (h : ∀ c ∈ caches, c.lookup (scriptDataKey id key) = none) :
    dataAt db caches id key = dbDataAt db id key := by
  induction caches with
  | nil => rfl
  | cons c base ih =>
    rw [dataAt_of_none (h c List.mem_cons_self)]
    exact ih fun c hc => h c (List.mem_cons_of_mem _ hc)

/-- A stack holds finitely many keys. -/
theorem dataAt_finite (db : CScriptDB) (caches : List ScriptCache) (hid : id.length = 6) :
    ∃ B : Finset Bytes, B.card < rounds db caches ∧ ∀ key, dataAt db caches id key ≠ none → key ∈ B := by
  induction caches with
  | nil =>
    refine ⟨(dbKeys db).toFinset.image fun key => key.drop 11, ?_, fun key hkey => ?_⟩
    · exact Nat.lt_succ_of_le (Finset.card_image_le.trans (List.toFinset_card_le _))
    · exact Finset.mem_image.mpr ⟨_, List.mem_toFinset.mpr (mem_dbKeys.mpr hkey), scriptDataKey_drop hid key⟩
  | cons c base ih =>
    obtain ⟨B, hcard, hB⟩ := ih
    refine ⟨B ∪ c.keys.toFinset.image fun key => key.drop 11, ?_, fun key hkey => ?_⟩
    · have hunion := Finset.card_union_le B (c.keys.toFinset.image fun key => key.drop 11)
      have himage : (c.keys.toFinset.image fun key => key.drop 11).card ≤ c.keys.length :=
        Finset.card_image_le.trans (List.toFinset_card_le _)
      unfold rounds at hcard ⊢
      rw [List.map_cons, List.sum_cons]
      omega
    · rw [Finset.mem_union]
      by_cases hlookup : c.lookup (scriptDataKey id key) = none
      · rw [dataAt_of_none hlookup] at hkey
        exact .inl (hB key hkey)
      · refine .inr (Finset.mem_image.mpr ⟨_, List.mem_toFinset.mpr ?_, scriptDataKey_drop hid key⟩)
        exact AList.mem_keys.mp (AList.lookup_isSome.mp (Option.isSome_iff_ne_none.mpr hlookup))

/-! ## What a stack shows -/

/-- The keys above the empty one that the stack comes to when the database does not answer behind
that one: those with a key that a cache supplies at or before them. -/
def Reached (caches : List ScriptCache) (id key : Bytes) : Prop :=
  key ≠ [] ∧ ∃ c ∈ caches, ∃ j, j ≤ key ∧ ownDataAt c id j ≠ none

open Classical in
noncomputable def reachedAt (db : CScriptDB) (caches : List ScriptCache) (id key : Bytes) : Option Bytes :=
  if Reached caches id key then dataAt db caches id key else none

theorem Reached.supplies {key : Bytes} (h : Reached caches id key) : Supplies caches id := by
  obtain ⟨_, c, hc, j, _, hj⟩ := h
  exact ⟨c, hc, j, hj⟩

theorem Reached.mono {j k : Bytes} (h : Reached caches id j) (hle : j ≤ k) : Reached caches id k := by
  obtain ⟨hne, c, hc, i, hi, hown⟩ := h
  refine ⟨?_, c, hc, i, le_trans hi hle, hown⟩
  rintro rfl
  exact hne (le_antisymm hle (List.nil_le j))

theorem reachedAt_of_reached {key : Bytes} (h : Reached caches id key) :
    reachedAt db caches id key = dataAt db caches id key := if_pos h

theorem reached_of_some {key : Bytes} (h : reachedAt db caches id key ≠ none) : Reached caches id key := by
  by_contra hno
  exact h (if_neg hno)

theorem reached_cons {key : Bytes} (h : Reached base id key) : Reached (c :: base) id key := by
  obtain ⟨hne, c', hc', hown⟩ := h
  exact ⟨hne, c', List.mem_cons_of_mem c hc', hown⟩

/-- A cache over the keys reached below: what it shows is reached, -/
theorem merged_reached_sub {key v : Bytes} (hkey : key ≠ [])
    (h : merged c id (reachedAt db base id) key = some v) : reachedAt db (c :: base) id key = some v := by
  unfold merged at h
  split at h
  · next hlookup =>
    have hreached : Reached base id key := reached_of_some (by rw [h]; simp)
    rw [reachedAt_of_reached hreached] at h
    rw [reachedAt_of_reached (reached_cons hreached), dataAt_of_none hlookup, h]
  · next hlookup =>
    have hown : Reached (c :: base) id key :=
      ⟨hkey, c, List.mem_cons_self, key, le_rfl, by rw [h]; simp⟩
    rw [reachedAt_of_reached hown, dataAt_of_some hkey hlookup, h]

/-- and what else is reached comes after a key that the cache supplies. -/
theorem merged_reached_extra {key : Bytes} (hkey : key ≠ [])
    (hnone : merged c id (reachedAt db base id) key = none) (h : reachedAt db (c :: base) id key ≠ none) :
    ∃ j, j ≠ [] ∧ j < key ∧ merged c id (reachedAt db base id) j ≠ none := by
  have hreached := reached_of_some h
  rw [reachedAt_of_reached hreached] at h
  unfold merged at hnone
  split at hnone
  · next hlookup =>
    rw [dataAt_of_none hlookup] at h
    have hbase : ¬ Reached base id key := by
      intro hbase
      rw [reachedAt_of_reached hbase] at hnone
      exact h hnone
    obtain ⟨_, c', hc', j, hle, hown⟩ := hreached
    rcases List.mem_cons.mp hc' with rfl | hc'
    · obtain ⟨v, hv⟩ := Option.ne_none_iff_exists'.mp hown
      refine ⟨j, ?_, lt_of_le_of_ne hle ?_, by rw [merged_of_own hv]; simp⟩
      · rintro rfl
        exact hown (ownDataAt_nil _ _)
      · rintro rfl
        exact hown (ownDataAt_of_none hlookup)
    · exact absurd ⟨hkey, c', hc', j, hle, hown⟩ hbase
  · next hlookup =>
    rw [dataAt_of_some hkey hlookup] at h
    exact absurd hnone h

/-- Without an empty key in the database: all that the stack holds but the empty key. -/
def aboveEmpty (db : CScriptDB) (caches : List ScriptCache) (id key : Bytes) : Option Bytes :=
  if key = [] then none else dataAt db caches id key

theorem aboveEmpty_of_ne {key : Bytes} (h : key ≠ []) : aboveEmpty db caches id key = dataAt db caches id key := if_neg h

theorem merged_aboveEmpty : merged c id (aboveEmpty db base id) = aboveEmpty db (c :: base) id := by
  funext key
  by_cases hkey : key = []
  · subst hkey
    unfold merged aboveEmpty
    rw [if_pos rfl, if_pos rfl, ownDataAt_nil]
    exact ite_self _
  · rw [aboveEmpty_of_ne hkey, ← merged_dataAt hkey]
    unfold merged
    rw [aboveEmpty_of_ne hkey]

/-- With an empty key in the database: that one, unless a cache has changed it, and the keys
reached behind it. -/
noncomputable def withEmpty (db : CScriptDB) (caches : List ScriptCache) (id key : Bytes) : Option Bytes :=
  if key = [] then
    if ∀ c ∈ caches, c.lookup (scriptDataKey id []) = none then dbDataAt db id [] else none
  else reachedAt db caches id key

theorem withEmpty_nil : withEmpty db caches id []
    = if ∀ c ∈ caches, c.lookup (scriptDataKey id []) = none then dbDataAt db id [] else none := if_pos rfl

theorem withEmpty_of_ne {key : Bytes} (h : key ≠ []) : withEmpty db caches id key = reachedAt db caches id key := if_neg h

theorem withEmpty_part {key : Bytes} (h : withEmpty db caches id key ≠ none) : dataAt db caches id key ≠ none := by
  by_cases hkey : key = []
  · subst hkey
    rw [withEmpty_nil] at h
    split at h
    · next hunknown => rwa [dataAt_unknown hunknown]
    · exact absurd rfl h
  · rw [withEmpty_of_ne hkey] at h
    rwa [reachedAt_of_reached (reached_of_some h)] at h

theorem merged_withEmpty_nil : merged c id (withEmpty db base id) [] = withEmpty db (c :: base) id [] := by
  unfold merged
  rw [withEmpty_nil, withEmpty_nil, ownDataAt_nil]
  by_cases hlookup : c.lookup (scriptDataKey id []) = none
  · simp [hlookup]
  · simp [hlookup]

theorem merged_withEmpty_of_ne {key : Bytes} (h : key ≠ []) :
    merged c id (withEmpty db base id) key = merged c id (reachedAt db base id) key := by
  unfold merged
  rw [withEmpty_of_ne h]

/-- What the walk lists. -/
noncomputable def listed (db : CScriptDB) (caches : List ScriptCache) (id : Bytes) : Bytes → Option Bytes :=
  if db.getData (scriptDataKey id []) = none then aboveEmpty db caches id else withEmpty db caches id

theorem listed_of_none (h : db.getData (scriptDataKey id []) = none) : listed db caches id = aboveEmpty db caches id :=
  if_pos h

theorem listed_of_ne (h : db.getData (scriptDataKey id []) ≠ none) : listed db caches id = withEmpty db caches id :=
  if_neg h

theorem listed_part {key : Bytes} (h : listed db caches id key ≠ none) : dataAt db caches id key ≠ none := by
  unfold listed at h
  split at h
  · unfold aboveEmpty at h
    split at h
    · exact absurd rfl h
    · exact h
  · exact withEmpty_part h

/-- What the stack shows behind a question. -/
noncomputable def shownAfter (db : CScriptDB) (caches : List ScriptCache) (id : Bytes) :
    Option Bytes → Bytes → Option Bytes
  | none => listed db caches id
  | some k => if k = [] then reachedAt db caches id else dataAt db caches id

theorem shownAfter_of_ne {k : Bytes} (h : k ≠ []) : shownAfter db caches id (some k) = dataAt db caches id := by
  show (if k = [] then reachedAt db caches id else _) = _
  rw [if_neg h]

theorem shownAfter_nil : shownAfter db caches id (some []) = reachedAt db caches id := by
  show (if ([] : Bytes) = [] then reachedAt db caches id else dataAt db caches id) = _
  exact if_pos rfl

theorem reachedAt_part {key : Bytes} (h : reachedAt db caches id key ≠ none) : dataAt db caches id key ≠ none := by
  rwa [reachedAt_of_reached (reached_of_some h)] at h

theorem shownAfter_part {key : Bytes} (h : shownAfter db caches id q key ≠ none) : dataAt db caches id key ≠ none := by
  cases q with
  | none => exact listed_part h
  | some k =>
    by_cases hk : k = []
    · subst hk
      rw [shownAfter_nil] at h
      exact reachedAt_part h
    · rwa [shownAfter_of_ne hk] at h

/-- Behind one of the keys it shows a stack goes on with the others. -/
theorem shownAfter_next {k : Bytes} (hafter : After q k) (h : shownAfter db caches id q k ≠ none) :
    ∀ j, After (some k) j → shownAfter db caches id (some k) j = shownAfter db caches id q j := by
  intro j hj
  have hne : j ≠ [] := nil_lt_iff.mp (lt_of_le_of_lt (List.nil_le k) hj)
  have hreach : reachedAt db caches id k ≠ none → dataAt db caches id j = reachedAt db caches id j := fun hk =>
    (reachedAt_of_reached ((reached_of_some hk).mono (le_of_lt hj))).symm
  cases q with
  | none =>
    change listed db caches id k ≠ none at h
    show _ = listed db caches id j
    by_cases hempty : db.getData (scriptDataKey id []) = none
    · rw [listed_of_none hempty] at h ⊢
      have hk : k ≠ [] := by
        rintro rfl
        exact h (if_pos rfl)
      rw [shownAfter_of_ne hk, aboveEmpty_of_ne hne]
    · rw [listed_of_ne hempty] at h ⊢
      rw [withEmpty_of_ne hne]
      by_cases hk : k = []
      · rw [hk, shownAfter_nil]
      · rw [withEmpty_of_ne hk] at h
        rw [shownAfter_of_ne hk, hreach h]
  | some i =>
    have hk : k ≠ [] := nil_lt_iff.mp (lt_of_le_of_lt (List.nil_le i) hafter)
    rw [shownAfter_of_ne hk]
    by_cases hi : i = []
    · subst hi
      rw [shownAfter_nil] at h ⊢
      exact hreach h
    · rw [shownAfter_of_ne hi]

/-- A cache over what its base shows. -/
theorem least_shownAfter_cons {r : Option (Bytes × Bytes)}
    (h : Least (merged c id (shownAfter db base id q)) (After q) r) :
    Least (shownAfter db (c :: base) id q) (After q) r := by
  cases q with
  | none =>
    change Least (merged c id (listed db base id)) (After none) r at h
    show Least (listed db (c :: base) id) (After none) r
    by_cases hempty : db.getData (scriptDataKey id []) = none
    · rw [listed_of_none hempty] at h ⊢
      rwa [← merged_aboveEmpty]
    · rw [listed_of_ne hempty] at h ⊢
      refine h.of_subset (fun k v _ hk => ?_) fun k _ hnone hk => ?_
      · by_cases hkey : k = []
        · subst hkey
          rw [← merged_withEmpty_nil, hk]
        · rw [merged_withEmpty_of_ne hkey] at hk
          rw [withEmpty_of_ne hkey]
          exact merged_reached_sub hkey hk
      · by_cases hkey : k = []
        · subst hkey
          rw [← merged_withEmpty_nil] at hk
          exact absurd hnone hk
        · rw [merged_withEmpty_of_ne hkey] at hnone
          rw [withEmpty_of_ne hkey] at hk
          obtain ⟨j, hj, hlt, hmerged⟩ := merged_reached_extra hkey hnone hk
          refine ⟨j, trivial, hlt, ?_⟩
          rwa [merged_withEmpty_of_ne hj]
  | some i =>
    by_cases hi : i = []
    · subst hi
      rw [shownAfter_nil] at h ⊢
      refine h.of_subset (fun k v hk h => ?_) fun k hk hnone h => ?_
      · exact merged_reached_sub (nil_lt_iff.mp hk) h
      · obtain ⟨j, hj, hlt, hmerged⟩ := merged_reached_extra (nil_lt_iff.mp hk) hnone h
        exact ⟨j, nil_lt_iff.mpr hj, hlt, hmerged⟩
    · rw [shownAfter_of_ne hi] at h ⊢
      refine h.congr fun j hj => (merged_dataAt ?_).symm
      exact nil_lt_iff.mp (lt_of_le_of_lt (List.nil_le i) hj)

/-- The database shows what it holds, as far as the first key goes. -/
theorem least_shownAfter_nil {r : Option (Bytes × Bytes)} (hq : q ≠ some [])
    (h : Least (dbDataAt db id) (After q) r) : Least (shownAfter db [] id q) (After q) r := by
  cases q with
  | none =>
    show Least (listed db [] id) (After none) r
    by_cases hempty : db.getData (scriptDataKey id []) = none
    · rw [listed_of_none hempty]
      refine h.congr fun key _ => ?_
      by_cases hkey : key = []
      · subst hkey
        exact hempty.symm
      · exact aboveEmpty_of_ne hkey
    · -- the empty key comes first
      rw [listed_of_ne hempty]
      obtain ⟨v, hv⟩ := Option.ne_none_iff_exists'.mp hempty
      have hfirst : Least (dbDataAt db id) (After none) (some ([], v)) :=
        ⟨trivial, hv, fun j _ hj => absurd hj (not_lt_nil j)⟩
      obtain rfl := h.unique hfirst
      refine ⟨trivial, ?_, fun j _ hj => absurd hj (not_lt_nil j)⟩
      show withEmpty db [] id [] = some v
      rw [withEmpty_nil, if_pos fun c hc => absurd hc List.not_mem_nil]
      exact hv
  | some k =>
    rw [shownAfter_of_ne fun hk => hq (congrArg some hk)]
    exact h

end

/-! ## The answers of a stack -/

section
variable {db : CScriptDB} {c : ScriptCache} {base caches : List ScriptCache} {id : Bytes} {q : Option Bytes}

/-- No comparison on the way to an answer reads beyond the end of a key: each level that is asked comes
to data of its own or to a key that fits, and a cache asks its base again behind the keys it passes
over.  Behind the empty key the database is not looked at. -/
def Reads (db : CScriptDB) (id : Bytes) : List ScriptCache → Option Bytes → Prop
  | [], q => q ≠ some [] → DbFits db id q
  | c :: base, q => OwnFits c id q ∧ Reads db id base q ∧
      ∀ k, Passed c id (shownAfter db base id q) q k → Reads db id base (some k)

/-- The answer of a stack that reads no key beyond its end. -/
theorem returns_of_reads (hid : id.length = 6) (h : Reads db id caches q) :
    Returns db id caches (shownAfter db caches id q) q := by
  induction caches generalizing q with
  | nil =>
    by_cases hq : q = some []
    · subst hq
      refine ⟨none, fun key _ => ?_, fun n _ => rfl⟩
      rw [shownAfter_nil]
      refine if_neg ?_
      rintro ⟨_, c, hc, _⟩
      cases hc
    · obtain ⟨r, hr, heq⟩ := dbGetScriptData_least hid (h hq) hq
      exact ⟨r, least_shownAfter_nil hq hr, fun n _ => heq⟩
  | cons c base ih =>
    obtain ⟨hown, hbase, hpassed⟩ := h
    obtain ⟨B, hcard, hB⟩ := dataAt_finite db base hid
    obtain ⟨r, hr, hn⟩ := returns_cons hid hown
      ⟨B, hcard, fun k hk => hB k (shownAfter_part hk)⟩ (ih hbase)
      fun k hk => (ih (hpassed k hk)).congr fun j hj => (shownAfter_next hk.after hk.shown j hj).symm
    exact ⟨r, least_shownAfter_cons hr, hn⟩

/-- Where a key above the empty one is shown, the database has been looked at to the end of the script. -/
theorem stopFits_of_shown {k : Bytes} (hk : k ≠ []) (h : shownAfter db caches id q k ≠ none)
    (hdb : db.getData (scriptDataKey id []) = none ∨ Supplies caches id → StopFits (fun key => db.getData key ≠ none) id)
    (hq : ∀ i, q = some i → i ≠ [] → StopFits (fun key => db.getData key ≠ none) id) :
    StopFits (fun key => db.getData key ≠ none) id := by
  cases q with
  | none =>
    change listed db caches id k ≠ none at h
    by_cases hempty : db.getData (scriptDataKey id []) = none
    · exact hdb (.inl hempty)
    · rw [listed_of_ne hempty, withEmpty_of_ne hk] at h
      exact hdb (.inr (reached_of_some h).supplies)
  | some i =>
    by_cases hi : i = []
    · subst hi
      rw [shownAfter_nil] at h
      exact hdb (.inr (reached_of_some h).supplies)
    · exact hq i rfl hi

/-- Where the first key after the script's data fits in every level that is looked at, no read goes
beyond the end of a key. -/
theorem reads_of_fits (hcaches : ∀ c ∈ caches, StopFitsIn c id)
    (hdb : db.getData (scriptDataKey id []) = none ∨ Supplies caches id → StopFits (fun key => db.getData key ≠ none) id)
    (hq : ∀ i, q = some i → i ≠ [] → StopFits (fun key => db.getData key ≠ none) id) : Reads db id caches q := by
  induction caches generalizing q with
  | nil =>
    intro hne
    cases q with
    | none =>
      by_cases hempty : db.getData (scriptDataKey id []) = none
      · exact .inr (hdb (.inl hempty))
      · exact .inl ⟨[], trivial, hempty⟩
    | some i => exact .inr (hq i rfl fun hi => hne (congrArg some hi))
  | cons c base ih =>
    have hbase : ∀ c ∈ base, StopFitsIn c id := fun c hc => hcaches c (List.mem_cons_of_mem _ hc)
    have hbaseDb : db.getData (scriptDataKey id []) = none ∨ Supplies base id →
        StopFits (fun key => db.getData key ≠ none) id := by
      rintro (hempty | ⟨c', hc', hown⟩)
      · exact hdb (.inl hempty)
      · exact hdb (.inr ⟨c', List.mem_cons_of_mem c hc', hown⟩)
    refine ⟨.inr (hcaches c List.mem_cons_self), ih hbase hbaseDb hq, fun k hk => ih hbase hbaseDb ?_⟩
    rintro _ ⟨rfl⟩ hne
    exact stopFits_of_shown hne hk.shown hbaseDb hq

/-! ## The whole list -/

/-- When no comparison reads beyond a key, the list is `listed`. -/
theorem listData_iff_listed (hid : id.length = 6) (hfits : ReadsFit db caches id) {m : Bytes → Option Bytes} :
    Enumerates (listData db caches id) m ↔ listed db caches id = m := by
  obtain ⟨hcaches, hdb⟩ := hfits
  have hanswers : ∀ {q}, Returns db id caches (listed db caches id) q →
      Answers (fun n s q => (getScriptData db id n s q).map (·, s)) caches (listed db caches id) q := by
    rintro q ⟨r, hr, hN⟩
    refine ⟨r, hr, rounds db caches, fun n hn => ?_⟩
    show (getScriptData db id n caches q).map (·, caches) = _
    rw [hN n hn]
    rfl
  obtain ⟨B, -, hB⟩ := dataAt_finite db caches hid
  refine enumerates_iff ⟨B, fun key h => hB key (listed_part h)⟩ (hanswers ?_) fun k hk => hanswers ?_
  · exact returns_of_reads hid (reads_of_fits hcaches hdb nofun)
  · have hreads : Reads db id caches (some k) := reads_of_fits hcaches hdb fun i hi hne => by
      obtain rfl := Option.some.inj hi
      exact stopFits_of_shown (q := none) hne hk hdb nofun
    exact (returns_of_reads hid hreads).congr fun j hj => (shownAfter_next (q := none) trivial hk j hj).symm

theorem listed_eq_iff : listed db caches id = dataAt db caches id ↔ EmptyKeyHarmless db caches id := by
  unfold listed
  by_cases hempty : db.getData (scriptDataKey id []) = none
  · rw [if_pos hempty]
    constructor
    · intro h
      have hnone : dataAt db caches id [] = none := (congrFun h []).symm.trans (if_pos rfl)
      exact ⟨fun hsome => absurd hnone hsome, fun hsome => absurd hempty hsome⟩
    · rintro ⟨hunknown, -⟩
      funext key
      by_cases hkey : key = []
      · subst hkey
        by_contra hne
        have hsome : dataAt db caches id [] ≠ none := fun hnone => hne ((if_pos rfl).trans hnone.symm)
        rw [dataAt_unknown (hunknown hsome)] at hsome
        exact hsome hempty
      · exact aboveEmpty_of_ne hkey
  · rw [if_neg hempty]
    constructor
    · intro h
      refine ⟨fun hsome => ?_, fun _ key hkey hsome => ?_⟩
      · have hnil : withEmpty db caches id [] ≠ none := by
          rw [congrFun h []]
          exact hsome
        rw [withEmpty_nil] at hnil
        by_contra hno
        exact hnil (if_neg hno)
      · have hreached : reachedAt db caches id key ≠ none := by
          rw [← withEmpty_of_ne hkey, congrFun h key]
          exact hsome
        exact (reached_of_some hreached).2
    · rintro ⟨hunknown, hreach⟩
      funext key
      by_cases hkey : key = []
      · subst hkey
        rw [withEmpty_nil]
        by_cases hall : ∀ c ∈ caches, c.lookup (scriptDataKey id []) = none
        · rw [if_pos hall, dataAt_unknown hall]
        · rw [if_neg hall]
          by_contra hne
          exact hall (hunknown fun hnone => hne hnone.symm)
      · rw [withEmpty_of_ne hkey]
        by_cases hsome : dataAt db caches id key = none
        · rw [hsome]
          by_contra hne
          exact withEmpty_part (by rwa [withEmpty_of_ne hkey]) hsome
        · exact reachedAt_of_reached ⟨hkey, hreach hempty key hkey hsome⟩

end

/-! ## Reads beyond a key -/

section
variable {db : CScriptDB} {c : ScriptCache} {base caches : List ScriptCache} {id : Bytes} {q : Option Bytes}

theorem drop_ne_nil (hid : id.length = 6) {key : Bytes} (hbegins : dataKeyPrefix id <+: key)
    (hlt : dataKeyPrefix id < key) : key.drop 11 ≠ [] := by
  intro hnil
  have hkey := scriptDataKey_of_prefix hid hbegins
  rw [hnil, ← dataKeyPrefix_append, List.append_nil] at hkey
  rw [hkey] at hlt
  exact lt_irrefl _ hlt

/-- The search of a cache never finds the empty key. -/
theorem ownData_above (hid : id.length = 6) {k : Bytes} {e : Bytes × Bytes}
    (h : ownData c (dataKeyPrefix id) (upperBound (dataKeyPrefix id ++ k) (keysOf c)) = .ok (some e)) :
    e.1.drop 11 ≠ [] ∧ e.2 ≠ [] := by
  obtain ⟨hmem, hbegins, _, hv⟩ := ownData_prefix hid h
  have hlt := ((mem_dropWhile_le (keysOf_ascending c)).mp hmem).2
  exact ⟨drop_ne_nil hid hbegins (lt_of_le_of_lt List.le_append_left hlt), hv⟩

theorem dataCursor_found {cDSKeySet key : Bytes} {l : List Bytes} (h : dataCursor cDSKeySet 0 l = .ok (some key)) :
    key ∈ l ∧ key.take 11 = cDSKeySet.take 11 := by
  cases l with
  | nil => cases h
  | cons first l =>
    rw [dataCursor] at h
    split at h
    · cases h
    · split at h
      · next hbegins =>
        obtain rfl := Option.some.inj (Except.ok.inj h)
        exact ⟨List.mem_cons_self, hbegins⟩
      · cases h

section
variable {vchKey : Bytes} {own : Option (Bytes × Bytes)} {ask : Option Bytes → Except Stuck (Option (Bytes × Bytes))}
  {i : ℕ}

/-- What a round of the loop can do. -/
theorem baseLoop_cases {x : Option (Bytes × Bytes)} (h : baseLoop c vchKey own ask (i + 1) q = .ok x)
    (hv : ∀ e, own = some e → e.2 ≠ []) :
    (ask q = .ok none ∧ x = own.map fun e => (e.1.drop 11, e.2)) ∨
      ∃ e, ask q = .ok (some e) ∧ (x = some e ∨ (∃ f, own = some f ∧ x = some (f.1.drop 11, f.2)) ∨
        baseLoop c vchKey own ask i (some e.1) = .ok x) := by
  cases hask : ask q with
  | error what =>
    unfold baseLoop at h
    rw [hask] at h
    cases h
  | ok r =>
    cases r with
    | none =>
      rw [baseLoop_end hask hv] at h
      exact .inl ⟨rfl, (Except.ok.inj h).symm⟩
    | some e =>
      refine .inr ⟨e, rfl, ?_⟩
      by_cases hbefore : ∀ f, own = some f → vchKey ++ e.1 < f.1
      · by_cases hlookup : c.lookup (vchKey ++ e.1) = none
        · rw [baseLoop_found hask hbefore hlookup] at h
          exact .inl (Except.ok.inj h).symm
        · rw [baseLoop_again hask hbefore hlookup] at h
          exact .inr (.inr h)
      · obtain ⟨f, rfl, hge⟩ : ∃ f, own = some f ∧ ¬ vchKey ++ e.1 < f.1 := by
          by_contra hno
          refine hbefore fun f hf => ?_
          by_contra hlt
          exact hno ⟨f, hf, hlt⟩
        rw [baseLoop_own hask hge (hv f rfl)] at h
        exact .inr (.inl ⟨f, rfl, (Except.ok.inj h).symm⟩)

/-- A loop that ends without a key has none of its own, and the base had the last word. -/
theorem baseLoop_none (h : baseLoop c vchKey own ask i q = .ok none) (hv : ∀ e, own = some e → e.2 ≠ []) :
    own = none ∧ ∃ q', ask q' = .ok none ∧
      (q' = q ∨ ∃ q₁ e, ask q₁ = .ok (some e) ∧ q' = some e.1 ∧ (q₁ = q ∨ q₁ ≠ none)) := by
  induction i generalizing q with
  | zero => cases h
  | succ i ih =>
    rcases baseLoop_cases h hv with ⟨hask, hx⟩ | ⟨e, hask, hx | ⟨f, _, hx⟩ | hx⟩
    · have hown : own = none := by
        cases own with
        | none => rfl
        | some f => cases hx
      exact ⟨hown, q, hask, .inl rfl⟩
    · cases hx
    · cases hx
    · obtain ⟨hown, q', hq', hfrom⟩ := ih hx
      refine ⟨hown, q', hq', .inr ?_⟩
      rcases hfrom with rfl | ⟨q₁, e', hask', rfl, hq₁⟩
      · exact ⟨q, e, hask, rfl, .inl rfl⟩
      · refine ⟨q₁, e', hask', rfl, .inr ?_⟩
        rcases hq₁ with rfl | hq₁
        · simp
        · exact hq₁

end

/-- A cache answers from its own data and the answers of its base. -/
theorem getScriptData_cons_ok {n : ℕ} {r : Option (Bytes × Bytes)}
    (h : getScriptData db id n (c :: base) q = .ok r) :
    ∃ own, ownData c (dataKeyPrefix id) (upperBound (dataKeyPrefix id ++ q.getD []) (keysOf c)) = .ok own ∧
      baseLoop c (dataKeyPrefix id) own (getScriptData db id n base) n q = .ok r := by
  rw [getScriptData] at h
  cases hown : ownData c (dataKeyPrefix id) (upperBound (dataKeyPrefix id ++ q.getD []) (keysOf c)) with
  | error what =>
    rw [hown] at h
    cases h
  | ok own =>
    rw [hown] at h
    exact ⟨own, rfl, h⟩

/-- The empty key is only ever the first answer, and comes from the database. -/
theorem answer_ne_nil (hid : id.length = 6) {n : ℕ} {e : Bytes × Bytes}
    (h : getScriptData db id n caches q = .ok (some e)) :
    (q = none ∧ db.getData (scriptDataKey id []) ≠ none) ∨ e.1 ≠ [] := by
  induction caches generalizing q e with
  | nil =>
    rw [getScriptData] at h
    by_cases hq : q = some []
    · rw [hq] at h
      cases h
    · obtain ⟨cDSKeySet, found, hset, hcursor, hfound⟩ := dbGetScriptData_ok hid hq h
      obtain ⟨key, rfl, rfl⟩ := Option.map_eq_some_iff.mp hfound.symm
      obtain ⟨hmem, htake⟩ := dataCursor_found hcursor
      have hbegins := (take_eq_dataKeyPrefix hid).mp (htake.trans hset)
      obtain ⟨hstored, hle, hafter⟩ := mem_dbTail.mp hmem
      by_cases hnil : key.drop 11 = []
      · have hkey := scriptDataKey_of_prefix hid hbegins
        rw [hnil] at hkey
        refine .inl ⟨?_, hkey ▸ mem_dbKeys.mp hstored⟩
        cases q with
        | none => rfl
        | some k =>
          have hlt := hafter k rfl
          rw [← hkey, scriptDataKey_lt] at hlt
          exact absurd hlt (not_lt_nil k)
      · exact .inr hnil
  | cons c base ih =>
    obtain ⟨own, hown, hloop⟩ := getScriptData_cons_ok h
    have habove : ∀ f, own = some f → f.1.drop 11 ≠ [] ∧ f.2 ≠ [] := by
      rintro f rfl
      exact ownData_above hid hown
    have hrounds : ∀ i q', baseLoop c (dataKeyPrefix id) own (getScriptData db id n base) i q' = .ok (some e) →
        (q' = none ∧ db.getData (scriptDataKey id []) ≠ none) ∨ e.1 ≠ [] := by
      intro i
      induction i with
      | zero =>
        intro q' h
        cases h
      | succ i ihi =>
        intro q' h
        rcases baseLoop_cases h fun f hf => (habove f hf).2 with ⟨_, hx⟩ | ⟨f, hask, hx | ⟨g, hg, hx⟩ | hx⟩
        · obtain ⟨g, hg, rfl⟩ := Option.map_eq_some_iff.mp hx.symm
          exact .inr (habove g hg).1
        · obtain rfl := Option.some.inj hx
          exact ih hask
        · obtain rfl := Option.some.inj hx
          exact .inr (habove g hg).1
        · rcases ihi _ hx with ⟨hnone, _⟩ | hne
          · cases hnone
          · exact .inr hne
    exact hrounds n q hloop

/-- A cache that finds nothing of its own, asked first or behind the empty key, has nothing. -/
theorem ownDataAt_eq_none_of_ownData (hid : id.length = 6) (hfits : StopFitsIn c id)
    (hq : ∀ k, q = some k → k = [])
    (hown : ownData c (dataKeyPrefix id) (upperBound (dataKeyPrefix id ++ q.getD []) (keysOf c)) = .ok none)
    (key : Bytes) : ownDataAt c id key = none := by
  obtain ⟨r, hleast, heq⟩ := ownData_least hid (q := q) (.inr hfits)
  have hr : r = none := by
    rw [hown] at heq
    exact Option.map_eq_none_iff.mp (Except.ok.inj heq).symm
  rw [hr] at hleast
  by_contra hkey
  refine absurd (hleast key ?_) hkey
  cases q with
  | none => trivial
  | some k =>
    obtain rfl := hq k rfl
    refine nil_lt_iff.mpr ?_
    rintro rfl
    exact hkey (ownDataAt_nil _ _)

/-- A stack that answers "no more" has looked at the key after the script's data in every cache,
and in the database unless that was only asked behind the empty key. -/
theorem fits_of_none (hid : id.length = 6) {n : ℕ} (h : getScriptData db id n caches q = .ok none) :
    (∀ c ∈ caches, StopFitsIn c id) ∧
      ((q ≠ some [] ∧ db.getData (scriptDataKey id []) = none) ∨ (∃ k, q = some k ∧ k ≠ []) ∨ Supplies caches id →
        StopFits (fun key => db.getData key ≠ none) id) := by
  induction caches generalizing q with
  | nil =>
    refine ⟨fun c hc => absurd hc List.not_mem_nil, fun hcond => ?_⟩
    have hq : q ≠ some [] := by
      rcases hcond with ⟨hq, _⟩ | ⟨k, rfl, hk⟩ | ⟨c, hc, _⟩
      · exact hq
      · exact fun heq => hk (Option.some.inj heq)
      · cases hc
    obtain ⟨cDSKeySet, found, hset, hcursor, hfound⟩ := dbGetScriptData_ok hid hq h
    have htail := dbTail_tail db id q
    rw [Option.map_eq_none_iff.mp hfound.symm] at hcursor
    exact htail.fits_iff.mp (fits_of_dataCursor hid hset htail.ascending hcursor)
  | cons c base ih =>
    obtain ⟨own, hown, hloop⟩ := getScriptData_cons_ok h
    have hv : ∀ e, own = some e → e.2 ≠ [] := by
      rintro e rfl
      exact (ownData_above hid hown).2
    obtain ⟨rfl, q', hq', hfrom⟩ := baseLoop_none hloop hv
    have htail := upper_tail c id (q.getD [])
    have hcfits : StopFitsIn c id := htail.fits_iff.mp (fits_of_ownData hid htail.ascending hown)
    obtain ⟨hbase, hdb⟩ := ih hq'
    refine ⟨fun c' hc' => ?_, fun hcond => hdb ?_⟩
    · rcases List.mem_cons.mp hc' with rfl | hc'
      · exact hcfits
      · exact hbase c' hc'
    · -- an answer of the base on the way is not the empty key, unless the question was the first
      have hanswer : (q ≠ none ∨ db.getData (scriptDataKey id []) = none) → q' = q ∨ ∃ k, q' = some k ∧ k ≠ [] := by
        intro hfirst
        rcases hfrom with rfl | ⟨q₁, e, hask, rfl, hq₁⟩
        · exact .inl rfl
        · rcases answer_ne_nil hid hask with ⟨hnone, hempty⟩ | hne
          · rcases hfirst with hq | hno
            · rcases hq₁ with rfl | hq₁
              · exact absurd hnone hq
              · exact absurd hnone hq₁
            · exact absurd hno hempty
          · exact .inr ⟨e.1, rfl, hne⟩
      have hbehind : ∀ k, q = some k → k ≠ [] → ∃ k, q' = some k ∧ k ≠ [] := by
        rintro k rfl hk
        rcases hanswer (.inl (by simp)) with rfl | hnext
        · exact ⟨k, rfl, hk⟩
        · exact hnext
      rcases hcond with ⟨hq, hempty⟩ | ⟨k, hqk, hk⟩ | ⟨c', hc', key, hkey⟩
      · rcases hanswer (.inr hempty) with rfl | hnext
        · exact .inl ⟨hq, hempty⟩
        · exact .inr (.inl hnext)
      · exact .inr (.inl (hbehind k hqk hk))
      · by_cases hk : ∃ k, q = some k ∧ k ≠ []
        · obtain ⟨k, hqk, hk⟩ := hk
          exact .inr (.inl (hbehind k hqk hk))
        · refine .inr (.inr ?_)
          rcases List.mem_cons.mp hc' with rfl | hc'
          · refine absurd (ownDataAt_eq_none_of_ownData hid hcfits (fun k hqk => ?_) hown key) hkey
            by_contra hne
            exact hk ⟨k, hqk, hne⟩
          · exact ⟨c', hc', key, hkey⟩

/-- The last question of a walk. -/
theorem listData_last {f : List ScriptCache → Option Bytes → Except Stuck (Option (Bytes × Bytes))} {n : ℕ}
    {l : List (Bytes × Bytes)} (h : walk (fun s q => (f s q).map (·, s)) Stuck.running n caches q = .ok l) :
    ∃ q', f caches q' = .ok none ∧ (q' = q ∨ ∃ q₁ e, f caches q₁ = .ok (some e) ∧ q' = some e.1) := by
  induction n generalizing q l with
  | zero => cases h
  | succ n ih =>
    rw [walk] at h
    cases hask : f caches q with
    | error what =>
      rw [hask] at h
      cases h
    | ok r =>
      rw [hask] at h
      cases r with
      | none => exact ⟨q, hask, .inl rfl⟩
      | some e =>
        obtain ⟨l', hl'⟩ : ∃ l', walk (fun s q => (f s q).map (·, s)) Stuck.running n caches (some e.1) = .ok l' := by
          cases hrest : walk (fun s q => (f s q).map (·, s)) Stuck.running n caches (some e.1) with
          | error what =>
            change (walk (fun s q => (f s q).map (·, s)) Stuck.running n caches (some e.1)).map _ = _ at h
            rw [hrest] at h
            cases h
          | ok l' => exact ⟨l', rfl⟩
        obtain ⟨q', hq', hfrom⟩ := ih hl'
        refine ⟨q', hq', .inr ?_⟩
        rcases hfrom with rfl | hfrom
        · exact ⟨q, e, hask, rfl⟩
        · exact hfrom

/-- A list that comes to its end has read no key beyond its end. -/
theorem readsFit_of_enumerates (hid : id.length = 6) {m : Bytes → Option Bytes}
    (h : Enumerates (listData db caches id) m) : ReadsFit db caches id := by
  obtain ⟨l, _, N, hN⟩ := h
  obtain ⟨q', hq', hfrom⟩ := listData_last (hN N le_rfl)
  obtain ⟨hcaches, hdb⟩ := fits_of_none hid hq'
  refine ⟨hcaches, fun hcond => hdb ?_⟩
  rcases hcond with hempty | hsupplies
  · refine .inl ⟨?_, hempty⟩
    rcases hfrom with rfl | ⟨q₁, e, hask, rfl⟩
    · simp
    · rcases answer_ne_nil hid hask with ⟨_, hsome⟩ | hne
      · exact absurd hempty hsome
      · exact fun heq => hne (Option.some.inj heq)
  · exact .inr (.inr hsupplies)

/-- The list of a script's data is complete exactly if no comparison reads beyond the end of a key
and the empty key does no harm. -/
theorem data_enumerated_iff (r : CRegID) :
    Enumerates (listData db caches r.getVec6) (fun key => data db caches (scriptDataKey r.getVec6 key)) ↔
      ReadsFit db caches r.getVec6 ∧ EmptyKeyHarmless db caches r.getVec6 := by
  have hid := r.length_getVec6
  constructor
  · intro h
    have hfits := readsFit_of_enumerates hid h
    exact ⟨hfits, listed_eq_iff.mp ((listData_iff_listed hid hfits).mp h)⟩
  · rintro ⟨hfits, hempty⟩
    exact (listData_iff_listed hid hfits).mpr (listed_eq_iff.mpr hempty)

end

end ScriptStack

/-! ## A script and its data -/

namespace Sample

open ScriptStack

def storeId : CRegID := ⟨1, 1⟩

/-- A cache that holds the code of a script and one data key of it. -/
def codeCache : ScriptCache :=
  ((∅ : ScriptCache).insert (scriptKey storeId.getVec6) [7]).insert (scriptDataKey storeId.getVec6 [97]) [8]

/-- A database with two data keys of the script, one of them empty. -/
def emptyKeyStore : CScriptDB :=
  scriptsOf [(scriptDataKey storeId.getVec6 [], [1]), (scriptDataKey storeId.getVec6 [97], [2])]

/-- Behind the last data key the nine bytes of the code's key are read as eleven, and behind an
empty key nothing more of the database is listed. -/
theorem data_list_incomplete :
    ¬ Enumerates (listData (scriptsOf []) [codeCache] storeId.getVec6)
        (fun key => data (scriptsOf []) [codeCache] (scriptDataKey storeId.getVec6 key)) ∧
      ¬ Enumerates (listData emptyKeyStore [∅] storeId.getVec6)
        (fun key => data emptyKeyStore [∅] (scriptDataKey storeId.getVec6 key)) := by
  have hid : storeId.getVec6.length = 6 := storeId.length_getVec6
  constructor
  · intro h
    have hstop := (readsFit_of_enumerates hid h).1 codeCache List.mem_cons_self (scriptKey storeId.getVec6)
      (by decide +kernel) (by decide +kernel) (by decide +kernel)
    refine absurd (hstop fun j hj _ hno => ?_) (by decide +kernel)
    have hkeys : j ∈ codeCache.keys := AList.mem_keys.mp (AList.lookup_isSome.mp (Option.isSome_iff_ne_none.mpr hj))
    have hcases : j = scriptDataKey storeId.getVec6 [97] ∨ j = scriptKey storeId.getVec6 := by
      have hlist : codeCache.keys = [scriptDataKey storeId.getVec6 [97], scriptKey storeId.getVec6] := by decide +kernel
      rw [hlist] at hkeys
      simpa using hkeys
    rcases hcases with rfl | rfl
    · exact absurd (prefix_scriptDataKey _ _) hno
    · exact le_rfl
  · intro h
    have hfits := readsFit_of_enumerates hid h
    have hharmless : EmptyKeyHarmless emptyKeyStore [∅] storeId.getVec6 :=
      listed_eq_iff.mp ((listData_iff_listed hid hfits).mp h)
    obtain ⟨c, hc, j, _, hj⟩ := hharmless.2 (by decide +kernel) [97] (by decide) (by decide +kernel)
    obtain rfl := List.mem_singleton.mp hc
    exact hj (ownDataAt_of_none (AList.lookup_empty _))

end Sample

end Dacrs
