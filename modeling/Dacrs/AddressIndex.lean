import Dacrs.ScriptJournal
import Dacrs.ScriptList

/-!
# The address index

`SetTxHashByAddress` writes an entry for a key id, a height and an index; `GetTxHashByAddress`
collects the entries of one key id and one height, the database first and then cache by cache.

The cursors compare 24 bytes of the 28 they seek, so heights run into one another, and the map of
the results keeps the first value it is given; the log of a write names the key "ADDR" alone, so
its undo removes nothing.  `addressIndex_exact_iff` says which stacks are read exactly all the same.
-/

open Codec (Bytes)
open Cursor

namespace Dacrs

open CScriptDBViewCache (liveValue liveValue_ne liveValue_of_ne addrPrefix dataPrefix)

namespace ScriptStack

/-! ## The operations -/

/-- The key id's bytes of a key, which are all that is compared. -/
def addressKeyPrefix (cKeyId : CKeyID) : Bytes := addrPrefix ++ uint160Codec.write cKeyId

/-- `vchPreKey` -/
def addressPreKey (cKeyId : CKeyID) (nHeight : Int32) : Bytes :=
  addressKeyPrefix cKeyId ++ Codec.i32.write nHeight

def addressKey (cKeyId : CKeyID) (nHeight nIndex : Int32) : Bytes :=
  addressPreKey cKeyId nHeight ++ Codec.i32.write nIndex

/-- `map::insert` -/
def insertNew (mapTxHash : ScriptCache) (key value : Bytes) : ScriptCache :=
  if (mapTxHash.lookup key).isSome then mapTxHash else mapTxHash.insert key value

/-- The loop over the keys from the cursor on, as long as the first 24 bytes are those of
`vchPreKey`. -/
def addressLoop (turn : ScriptCache → Bytes → ScriptCache) (vchPreKey : Bytes) :
    List Bytes → ScriptCache → ScriptCache
  | [], mapTxHash => mapTxHash
  | key :: keys, mapTxHash =>
    if key.take 24 = vchPreKey.take 24 then addressLoop turn vchPreKey keys (turn mapTxHash key)
    else mapTxHash

def dbTurn (db : CScriptDB) (mapTxHash : ScriptCache) (key : Bytes) : ScriptCache :=
  insertNew mapTxHash key (db.oldValue key)

def cacheTurn (c : ScriptCache) (mapTxHash : ScriptCache) (key : Bytes) : ScriptCache :=
  if (c.lookup key).getD [] = [] then mapTxHash.erase key
  else insertNew mapTxHash key ((c.lookup key).getD [])

/-- `CScriptDB::GetTxHashByAddress` -/
def dbGetTxHashByAddress (db : CScriptDB) (cKeyId : CKeyID) (nHeight : Int32)
    (mapTxHash : ScriptCache) : ScriptCache :=
  addressLoop (dbTurn db) (addressPreKey cKeyId nHeight)
    (seek (addressPreKey cKeyId nHeight) (dbKeys db)) mapTxHash

/-- `GetTxHashByAddress` of a stack. -/
def getTxHashByAddress (db : CScriptDB) (cKeyId : CKeyID) (nHeight : Int32) (mapTxHash : ScriptCache) :
    List ScriptCache → ScriptCache
  | [] => dbGetTxHashByAddress db cKeyId nHeight mapTxHash
  | c :: base =>
    addressLoop (cacheTurn c) (addressPreKey cKeyId nHeight)
      (upperBound (addressPreKey cKeyId nHeight) (keysOf c))
      (getTxHashByAddress db cKeyId nHeight mapTxHash base)

/-- The arguments of `SetTxHashByAddress`. -/
structure AddressCall where
  cKeyId : CKeyID
  nHeight : Int32
  nIndex : Int32
  strTxHash : Bytes

def AddressCall.key (call : AddressCall) : Bytes := addressKey call.cKeyId call.nHeight call.nIndex

/-- `SetTxHashByAddress`: the log is made before the key is complete. -/
def setTxHashByAddress (db : CScriptDB) (caches : List ScriptCache) (call : AddressCall) :
    List ScriptCache × CScriptDBOperLog :=
  let (vchOldValue, caches) := getData db caches addrPrefix
  (setData call.key call.strTxHash caches, ⟨addrPrefix, vchOldValue.getD []⟩)

/-- A sequence of calls, and the log of each. -/
def setTxHashes (db : CScriptDB) (caches : List ScriptCache) (calls : List AddressCall) :
    List ScriptCache × List CScriptDBOperLog :=
  calls.foldl (fun st call =>
    let (caches, log) := setTxHashByAddress db st.1 call
    (caches, st.2 ++ [log])) (caches, [])

/-! ## What is meant -/

/-- The key of an entry of this key id and height. -/
def BelongsTo (cKeyId : CKeyID) (nHeight : Int32) (key : Bytes) : Prop :=
  ∃ nIndex, key = addressKey cKeyId nHeight nIndex

/-- The answer is the entries of the merged map that belong to the key id and the height. -/
def ReadExact (db : CScriptDB) (caches : List ScriptCache) (cKeyId : CKeyID) (nHeight : Int32) : Prop :=
  ∀ key v, (getTxHashByAddress db cKeyId nHeight ∅ caches).lookup key = some v ↔
    BelongsTo cKeyId nHeight key ∧ data db caches key = some v

/-- Undoing a log removes the entry of a key, and nothing else. -/
def RemovesOnly (db : CScriptDB) (caches : List ScriptCache) (log : CScriptDBOperLog) (key : Bytes) : Prop :=
  ∃ caches', undoScriptData db caches log = .ok caches' ∧
    ∀ k, data db caches' k = if k = key then none else data db caches k

/-! ## When it is -/

/-- The level on top of a stack, the database if there is no cache, gives a key its value where
nothing below it has one. -/
def FirstValue (db : CScriptDB) (caches : List ScriptCache) (key v : Bytes) : Prop :=
  match caches with
  | [] => db.getData key = some v
  | c :: base => (c.lookup key).bind liveValue = some v ∧ data db base key = none

/-- An entry that has been there since some level, never erased above it, has another value now. -/
def Rewritten (db : CScriptDB) (caches : List ScriptCache) (key : Bytes) : Prop :=
  ∃ upper lower v, caches = upper ++ lower ∧ FirstValue db lower key v ∧
    (∀ c ∈ upper, c.lookup key ≠ some []) ∧ data db caches key ≠ some v

/-- The stacks whose entries of a key id and a height are read exactly. -/
structure Unmixed (db : CScriptDB) (caches : List ScriptCache) (cKeyId : CKeyID) (nHeight : Int32) : Prop where
  /-- The database has no entry under the prefix alone. -/
  bare : db.getData (addressPreKey cKeyId nHeight) = none
  /-- No live key of this key id that comes after the prefix is another one's. -/
  others : ∀ key, addressKeyPrefix cKeyId <+: key → addressPreKey cKeyId nHeight < key →
    data db caches key ≠ none → BelongsTo cKeyId nHeight key
  kept : ∀ key, BelongsTo cKeyId nHeight key → ¬ Rewritten db caches key

/-- The hash that a sequence of calls wrote last under a key. -/
def lastHash (calls : List AddressCall) (key : Bytes) : Option Bytes :=
  (calls.reverse.find? fun call => call.key = key).map AddressCall.strTxHash

/-! ## The loops -/

theorem lookup_insertNew (m : ScriptCache) (key value k : Bytes) :
    (insertNew m key value).lookup k
      = if k = key then (m.lookup key).or (some value) else m.lookup k := by
  unfold insertNew
  cases h : m.lookup key with
  | none =>
    rw [if_neg (by simp)]
    by_cases hk : k = key
    · rw [hk, AList.lookup_insert, if_pos rfl]
      rfl
    · rw [AList.lookup_insert_ne hk, if_neg hk]
  | some v =>
    rw [if_pos (show (some v).isSome = true from rfl)]
    by_cases hk : k = key
    · rw [hk, h, if_pos rfl]
      rfl
    · rw [if_neg hk]

theorem addressPreKey_take (cKeyId : CKeyID) (nHeight : Int32) :
    (addressPreKey cKeyId nHeight).take 24 = addressKeyPrefix cKeyId := by
  have hlen : (addressKeyPrefix cKeyId).length = 24 := by
    simp [addressKeyPrefix, addrPrefix]
  exact List.take_left' hlen

theorem take_eq_iff {cKeyId : CKeyID} {nHeight : Int32} {key : Bytes} :
    key.take 24 = (addressPreKey cKeyId nHeight).take 24 ↔ addressKeyPrefix cKeyId <+: key := by
  have hlen : (addressKeyPrefix cKeyId).length = 24 := by
    simp [addressKeyPrefix, addrPrefix]
  rw [addressPreKey_take, List.prefix_iff_eq_take, hlen]
  exact eq_comm

section
variable {db : CScriptDB} {caches base : List ScriptCache} {c : ScriptCache} {cKeyId : CKeyID}
  {nHeight : Int32} {key v : Bytes}

/-- A loop over ascending keys from the prefix on makes the turn of every key that has the 24
bytes: once it has met a key without them, no later one has them. -/
theorem addressLoop_lookup {turn : ScriptCache → Bytes → ScriptCache}
    {f : Bytes → Option Bytes → Option Bytes}
    (hturn : ∀ m key k, (turn m key).lookup k = if k = key then f key (m.lookup key) else m.lookup k)
    (keys : List Bytes) (hasc : keys.Pairwise (· < ·))
    (hfrom : ∀ key ∈ keys, addressPreKey cKeyId nHeight ≤ key) (m : ScriptCache) (k : Bytes) :
    (addressLoop turn (addressPreKey cKeyId nHeight) keys m).lookup k
      = if k ∈ keys ∧ addressKeyPrefix cKeyId <+: k then f k (m.lookup k) else m.lookup k := by
  induction keys generalizing m with
  | nil => simp [addressLoop]
  | cons key keys ih =>
    obtain ⟨hlt, hasc⟩ := List.pairwise_cons.mp hasc
    have hrest := ih hasc fun j hj => hfrom j (List.mem_cons_of_mem key hj)
    have hpast : key ∉ keys := fun hmem => lt_irrefl key (hlt key hmem)
    rw [addressLoop]
    by_cases htake : key.take 24 = (addressPreKey cKeyId nHeight).take 24
    · have hstarts := take_eq_iff.mp htake
      rw [if_pos htake, hrest, hturn]
      by_cases hk : k = key
      · subst hk
        rw [if_neg fun h => hpast h.1, if_pos rfl, if_pos ⟨List.mem_cons_self, hstarts⟩]
      · simp [hk]
    · rw [if_neg htake, if_neg]
      rintro ⟨hmem, hk⟩
      have hnot : ¬ addressKeyPrefix cKeyId <+: key := fun h => htake (take_eq_iff.mpr h)
      rcases List.mem_cons.mp hmem with rfl | hmem
      · exact hnot hk
      · obtain ⟨rest, rfl⟩ := hk
        have hle : addressKeyPrefix cKeyId ≤ key :=
          le_trans List.le_append_left (hfrom key List.mem_cons_self)
        have hafter := append_lt_of_not_prefix hle hnot rest
        exact lt_asymm hafter (hlt _ hmem)

/-- What is collected of a key, level by level. -/
def collected (db : CScriptDB) : List ScriptCache → Bytes → Option Bytes
  | [], key => db.getData key
  | c :: base, key =>
    match c.lookup key with
    | none => collected db base key
    | some v => if v = [] then none else (collected db base key).or (some v)

theorem collected_of_none (h : c.lookup key = none) :
    collected db (c :: base) key = collected db base key := by
  rw [collected, h]

theorem collected_of_some (h : c.lookup key = some v) : collected db (c :: base) key
    = if v = [] then none else (collected db base key).or (some v) := by
  rw [collected, h]

/-- What a turn of the two loops does to the entry of its key. -/
def dbAnswer (db : CScriptDB) (key : Bytes) (o : Option Bytes) : Option Bytes :=
  o.or (some (db.oldValue key))

def cacheAnswer (c : ScriptCache) (key : Bytes) (o : Option Bytes) : Option Bytes :=
  if (c.lookup key).getD [] = [] then none else o.or (some ((c.lookup key).getD []))

theorem dbTurn_lookup (m : ScriptCache) (key k : Bytes) : (dbTurn db m key).lookup k
    = if k = key then dbAnswer db key (m.lookup key) else m.lookup k :=
  lookup_insertNew m key (db.oldValue key) k

theorem cacheTurn_lookup (m : ScriptCache) (key k : Bytes) : (cacheTurn c m key).lookup k
    = if k = key then cacheAnswer c key (m.lookup key) else m.lookup k := by
  unfold cacheTurn cacheAnswer
  by_cases hv : (c.lookup key).getD [] = []
  · rw [if_pos hv, if_pos hv]
    by_cases hk : k = key
    · rw [hk, if_pos rfl, AList.lookup_erase]
    · rw [if_neg hk, AList.lookup_erase_ne hk]
  · rw [if_neg hv, if_neg hv, lookup_insertNew]

theorem dbGetTxHashByAddress_lookup (key : Bytes) :
    (dbGetTxHashByAddress db cKeyId nHeight ∅).lookup key
      = if addressKeyPrefix cKeyId <+: key ∧ addressPreKey cKeyId nHeight ≤ key then db.getData key
        else none := by
  have hasc := dbKeys_ascending db
  unfold dbGetTxHashByAddress
  rw [addressLoop_lookup dbTurn_lookup (seek (addressPreKey cKeyId nHeight) (dbKeys db))
    (pairwise_dropWhile _ hasc) fun j hj => ((mem_dropWhile_lt hasc).mp hj).2]
  have hkeys : key ∈ seek (addressPreKey cKeyId nHeight) (dbKeys db) ↔
      db.getData key ≠ none ∧ addressPreKey cKeyId nHeight ≤ key := by
    rw [seek, mem_dropWhile_lt hasc, mem_dbKeys]
  simp only [AList.lookup_empty, hkeys]
  by_cases hp : addressKeyPrefix cKeyId <+: key ∧ addressPreKey cKeyId nHeight ≤ key
  · rw [if_pos hp]
    cases hd : db.getData key with
    | none =>
      rw [if_neg]
      simp
    | some v =>
      rw [if_pos ⟨⟨by simp, hp.2⟩, hp.1⟩]
      show some (db.oldValue key) = some v
      rw [CScriptDBViewCache.oldValue, hd]
      rfl
  · rw [if_neg hp, if_neg fun h => hp ⟨h.2, h.1.2⟩]

/-- The caches make their turns above the prefix only. -/
theorem getTxHashByAddress_lookup (caches : List ScriptCache) (key : Bytes) :
    (getTxHashByAddress db cKeyId nHeight ∅ caches).lookup key
      = if addressKeyPrefix cKeyId <+: key ∧ addressPreKey cKeyId nHeight ≤ key then
          if key = addressPreKey cKeyId nHeight then db.getData key else collected db caches key
        else none := by
  induction caches with
  | nil =>
    rw [getTxHashByAddress, dbGetTxHashByAddress_lookup]
    simp [collected]
  | cons c base ih =>
    have hasc := keysOf_ascending c
    rw [getTxHashByAddress, addressLoop_lookup cacheTurn_lookup
      (upperBound (addressPreKey cKeyId nHeight) (keysOf c)) (pairwise_dropWhile _ hasc)
      fun j hj => le_of_lt ((mem_dropWhile_le hasc).mp hj).2]
    have hkeys : key ∈ upperBound (addressPreKey cKeyId nHeight) (keysOf c) ↔
        c.lookup key ≠ none ∧ addressPreKey cKeyId nHeight < key := by
      rw [upperBound, mem_dropWhile_le hasc, mem_keysOf]
    simp only [hkeys, ih]
    by_cases hp : addressKeyPrefix cKeyId <+: key ∧ addressPreKey cKeyId nHeight ≤ key
    · rw [if_pos hp, if_pos hp]
      by_cases hkey : key = addressPreKey cKeyId nHeight
      · rw [if_pos hkey, if_pos hkey, if_neg]
        rintro ⟨⟨-, hlt⟩, -⟩
        rw [hkey] at hlt
        exact lt_irrefl _ hlt
      · have hlt : addressPreKey cKeyId nHeight < key := lt_of_le_of_ne hp.2 (Ne.symm hkey)
        rw [if_neg hkey, if_neg hkey]
        cases hc : c.lookup key with
        | none =>
          rw [if_neg (by simp), collected_of_none hc]
        | some v =>
          rw [if_pos ⟨⟨by simp, hlt⟩, hp.1⟩, collected_of_some hc, cacheAnswer, hc]
          rfl
    · rw [if_neg hp, if_neg hp, if_neg]
      exact fun h => hp ⟨h.2, le_of_lt h.1.2⟩

/-! ## What is collected -/

/-- Something is collected exactly of the live keys. -/
theorem collected_eq_none_iff : collected db caches key = none ↔ data db caches key = none := by
  induction caches with
  | nil => rfl
  | cons c base ih =>
    cases hc : c.lookup key with
    | none => rw [collected_of_none hc, data_cons_of_none hc, ih]
    | some v =>
      rw [collected_of_some hc, data_cons_of_some hc]
      by_cases hv : v = []
      · simp [hv]
      · rw [if_neg hv, liveValue_of_ne hv]
        cases collected db base key <;> simp

/-- The value collected is the one that a level gave first. -/
theorem collected_eq_some_iff : collected db caches key = some v ↔
    ∃ upper lower, caches = upper ++ lower ∧ FirstValue db lower key v ∧
      ∀ c ∈ upper, c.lookup key ≠ some [] := by
  induction caches with
  | nil =>
    constructor
    · intro h
      exact ⟨[], [], rfl, h, fun c hc => by cases hc⟩
    · rintro ⟨upper, lower, heq, hfirst, -⟩
      obtain ⟨rfl, rfl⟩ := List.append_eq_nil_iff.mp heq.symm
      exact hfirst
  | cons c base ih =>
    constructor
    · intro h
      -- the value comes from below, through a cache that did not erase it, or from this cache
      have hcases : (collected db base key = some v ∧ c.lookup key ≠ some []) ∨
          FirstValue db (c :: base) key v := by
        cases hc : c.lookup key with
        | none =>
          rw [collected_of_none hc] at h
          exact .inl ⟨h, by simp⟩
        | some w =>
          rw [collected_of_some hc] at h
          by_cases hw : w = []
          · rw [if_pos hw] at h
            cases h
          · rw [if_neg hw] at h
            cases hbase : collected db base key with
            | some u =>
              rw [hbase] at h
              exact .inl ⟨h, by simpa using hw⟩
            | none =>
              rw [hbase] at h
              refine .inr ⟨?_, collected_eq_none_iff.mp hbase⟩
              rw [hc, Option.bind_some, liveValue_of_ne hw]
              exact h
      rcases hcases with ⟨hbase, hkept⟩ | hfirst
      · obtain ⟨upper, lower, rfl, hfirst, hupper⟩ := ih.mp hbase
        refine ⟨c :: upper, lower, rfl, hfirst, fun c' hc' => ?_⟩
        rcases List.mem_cons.mp hc' with rfl | hc'
        · exact hkept
        · exact hupper c' hc'
      · exact ⟨[], c :: base, rfl, hfirst, fun c' hc' => by cases hc'⟩
    · rintro ⟨upper, lower, heq, hfirst, hupper⟩
      cases upper with
      | nil =>
        obtain rfl : c :: base = lower := heq
        obtain ⟨hown, hnone⟩ := hfirst
        cases hc : c.lookup key with
        | none =>
          rw [hc] at hown
          cases hown
        | some w =>
          rw [hc, Option.bind_some] at hown
          rw [collected_of_some hc, collected_eq_none_iff.mpr hnone]
          unfold liveValue at hown
          split at hown
          · cases hown
          · next hw =>
            rw [if_neg hw]
            exact hown
      | cons c' upper =>
        obtain ⟨rfl, rfl⟩ := List.cons.inj heq
        have hbase := ih.mpr ⟨upper, lower, rfl, hfirst, fun c' hc' =>
          hupper c' (List.mem_cons_of_mem c hc')⟩
        cases hc : c.lookup key with
        | none => rw [collected_of_none hc, hbase]
        | some w =>
          have hw : w ≠ [] := by
            rintro rfl
            exact hupper c List.mem_cons_self hc
          rw [collected_of_some hc, if_neg hw, hbase]
          rfl

theorem rewritten_iff : Rewritten db caches key ↔
    ∃ v, collected db caches key = some v ∧ data db caches key ≠ some v := by
  constructor
  · rintro ⟨upper, lower, v, heq, hfirst, hupper, hne⟩
    exact ⟨v, collected_eq_some_iff.mpr ⟨upper, lower, heq, hfirst, hupper⟩, hne⟩
  · rintro ⟨v, hv, hne⟩
    obtain ⟨upper, lower, heq, hfirst, hupper⟩ := collected_eq_some_iff.mp hv
    exact ⟨upper, lower, v, heq, hfirst, hupper, hne⟩

/-! ## Reading -/

theorem BelongsTo.after (h : BelongsTo cKeyId nHeight key) :
    addressKeyPrefix cKeyId <+: key ∧ addressPreKey cKeyId nHeight < key := by
  obtain ⟨nIndex, rfl⟩ := h
  constructor
  · rw [addressKey, addressPreKey, List.append_assoc]
    exact List.prefix_append _ _
  · have hlt : addressPreKey cKeyId nHeight ++ [] < addressPreKey cKeyId nHeight ++ Codec.i32.write nIndex := by
      rw [append_lt_append, nil_lt_iff]
      exact CScriptDBViewCache.i32_write_ne_nil nIndex
    rwa [List.append_nil] at hlt

theorem preKey_not_belongsTo : ¬ BelongsTo cKeyId nHeight (addressPreKey cKeyId nHeight) := by
  intro h
  exact lt_irrefl _ h.after.2

theorem addressPreKey_starts (cKeyId : CKeyID) (nHeight : Int32) :
    addressKeyPrefix cKeyId <+: addressPreKey cKeyId nHeight := List.prefix_append _ _

/-- Above the prefix the answer is what is collected. -/
theorem lookup_above (hstarts : addressKeyPrefix cKeyId <+: key)
    (hlt : addressPreKey cKeyId nHeight < key) :
    (getTxHashByAddress db cKeyId nHeight ∅ caches).lookup key = collected db caches key := by
  rw [getTxHashByAddress_lookup, if_pos ⟨hstarts, le_of_lt hlt⟩, if_neg (ne_of_gt hlt)]

theorem readExact_iff : ReadExact db caches cKeyId nHeight ↔ Unmixed db caches cKeyId nHeight := by
  constructor
  · intro h
    refine ⟨?_, ?_, ?_⟩
    · cases hbare : db.getData (addressPreKey cKeyId nHeight) with
      | none => rfl
      | some v =>
        have hfound : (getTxHashByAddress db cKeyId nHeight ∅ caches).lookup (addressPreKey cKeyId nHeight)
            = some v := by
          rw [getTxHashByAddress_lookup, if_pos ⟨addressPreKey_starts cKeyId nHeight, le_refl _⟩,
            if_pos rfl, hbare]
        exact absurd ((h _ v).mp hfound).1 preKey_not_belongsTo
    · intro key hstarts hlt hlive
      obtain ⟨v, hv⟩ := Option.ne_none_iff_exists'.mp (collected_eq_none_iff.not.mpr hlive)
      exact ((h key v).mp ((lookup_above hstarts hlt).trans hv)).1
    · intro key hkey hrewritten
      obtain ⟨v, hv, hne⟩ := rewritten_iff.mp hrewritten
      exact hne ((h key v).mp ((lookup_above hkey.after.1 hkey.after.2).trans hv)).2
  · intro h key v
    constructor
    · intro hfound
      rw [getTxHashByAddress_lookup] at hfound
      split at hfound
      · next hp =>
        split at hfound
        · next hkey =>
          rw [hkey, h.bare] at hfound
          cases hfound
        · next hkey =>
          have hlt : addressPreKey cKeyId nHeight < key := lt_of_le_of_ne hp.2 (Ne.symm hkey)
          have hlive : data db caches key ≠ none := by
            rw [Ne, ← collected_eq_none_iff, hfound]
            simp
          have hbelongs := h.others key hp.1 hlt hlive
          refine ⟨hbelongs, ?_⟩
          by_contra hne
          exact h.kept key hbelongs (rewritten_iff.mpr ⟨v, hfound, hne⟩)
      · cases hfound
    · rintro ⟨hbelongs, hv⟩
      rw [lookup_above hbelongs.after.1 hbelongs.after.2]
      have hlive : collected db caches key ≠ none := by
        rw [Ne, collected_eq_none_iff, hv]
        simp
      obtain ⟨w, hw⟩ := Option.ne_none_iff_exists'.mp hlive
      have hsame : data db caches key = some w := by
        by_contra hne
        exact h.kept key hbelongs (rewritten_iff.mpr ⟨w, hw, hne⟩)
      rw [hw, ← hsame, hv]

/-! ## Undoing -/

theorem AddressCall.key_ne_addrPrefix (call : AddressCall) : addrPrefix ≠ call.key := by
  intro h
  have hlen := congrArg List.length h
  simp [AddressCall.key, addressKey, addressPreKey, addressKeyPrefix, addrPrefix] at hlen

/-- The entries a sequence of calls writes, on what a stack shows. -/
def writeHashes (s : CScriptDBViewCache) (calls : List AddressCall) : CScriptDBViewCache :=
  calls.foldl (fun s call => s.setData call.key call.strTxHash) s

theorem oldValue_writeHashes (s : CScriptDBViewCache) (calls : List AddressCall) :
    (writeHashes s calls).oldValue addrPrefix = s.oldValue addrPrefix := by
  induction calls generalizing s with
  | nil => rfl
  | cons call calls ih =>
    refine (ih _).trans ?_
    exact s.oldValue_setData_ne call.strTxHash call.key_ne_addrPrefix

/-- The last call under a key decides. -/
theorem getData_writeHashes (s : CScriptDBViewCache) (calls : List AddressCall) (key : Bytes) :
    (writeHashes s calls).getData key = (lastHash calls key).elim (s.getData key) liveValue := by
  induction calls using List.reverseRecOn with
  | nil => rfl
  | append_singleton calls call ih =>
    rw [writeHashes, List.foldl_append, List.foldl_cons, List.foldl_nil,
      CScriptDBViewCache.getData_setData]
    unfold lastHash
    rw [List.reverse_append, List.reverse_singleton, List.singleton_append]
    by_cases hkey : call.key = key
    · rw [if_pos hkey.symm, List.find?_cons_of_pos (by simpa using hkey)]
      rfl
    · rw [if_neg (Ne.symm hkey), List.find?_cons_of_neg (by simpa using hkey)]
      exact ih

section
variable {s : CScriptDBViewCache}

theorem Shows.setTxHashByAddress (h : Shows db caches s) (call : AddressCall) :
    Shows db (setTxHashByAddress db caches call).1 (s.setData call.key call.strTxHash) ∧
      (ScriptStack.setTxHashByAddress db caches call).2 = ⟨addrPrefix, s.oldValue addrPrefix⟩ := by
  obtain ⟨hval, hshows⟩ := h.getData addrPrefix
  refine ⟨hshows.setData call.key call.strTxHash, ?_⟩
  show CScriptDBOperLog.mk addrPrefix _ = CScriptDBOperLog.mk addrPrefix _
  rw [hval]
  rfl

/-- Every log of the sequence is the same one. -/
theorem Shows.setTxHashes (h : Shows db caches s) (calls : List AddressCall) :
    Shows db (setTxHashes db caches calls).1 (writeHashes s calls) ∧
      (ScriptStack.setTxHashes db caches calls).2
        = calls.map fun _ => ⟨addrPrefix, s.oldValue addrPrefix⟩ := by
  induction calls using List.reverseRecOn with
  | nil => exact ⟨h, rfl⟩
  | append_singleton calls call ih =>
    obtain ⟨hshows, hlogs⟩ := ih
    obtain ⟨hshows', hlog⟩ := hshows.setTxHashByAddress call
    have hold := oldValue_writeHashes s calls
    unfold ScriptStack.setTxHashes writeHashes at *
    rw [List.foldl_append, List.foldl_append]
    refine ⟨hshows', ?_⟩
    rw [List.map_append, ← hlogs, List.map_singleton, ← hold, ← hlog]
    rfl

/-- Undoing a log puts back what is there. -/
theorem Shows.undo_addressLog (h : Shows db caches s) :
    ∃ caches', ScriptStack.undoScriptData db caches ⟨addrPrefix, s.oldValue addrPrefix⟩ = .ok caches' ∧
      ∀ k, data db caches' k = data db caches k := by
  refine ⟨_, rfl, fun k => ?_⟩
  have hback := h.setData addrPrefix (s.oldValue addrPrefix)
  rw [CScriptDBViewCache.setData_oldValue] at hback
  rw [← hback.answers, h.answers]

end

theorem lastHash_isSome {calls : List AddressCall} {call : AddressCall} (h : call ∈ calls) :
    ∃ hash, lastHash calls call.key = some hash := by
  unfold lastHash
  cases hfind : calls.reverse.find? fun other => other.key = call.key with
  | none =>
    have hno := List.find?_eq_none.mp hfind call (List.mem_reverse.mpr h)
    simp at hno
  | some last => exact ⟨last.strTxHash, rfl⟩

/-- The log of a call removes the call's entry only where there is no such entry. -/
theorem removesOnly_iff (h : caches ≠ []) {calls : List AddressCall} {i : ℕ} {call : AddressCall}
    {log : CScriptDBOperLog} (hcall : calls[i]? = some call)
    (hlog : (setTxHashes db caches calls).2[i]? = some log) :
    RemovesOnly db (setTxHashes db caches calls).1 log call.key ↔
      lastHash calls call.key = some [] := by
  have hview : Shows db caches (view db caches) := Shows.view h
  obtain ⟨hshows, hlogs⟩ := hview.setTxHashes calls
  rw [hlogs, List.getElem?_map, hcall] at hlog
  have hlog' : log = ⟨addrPrefix, (writeHashes (view db caches) calls).oldValue addrPrefix⟩ := by
    rw [oldValue_writeHashes]
    exact (Option.some.inj hlog).symm
  obtain ⟨caches', hundo, hsame⟩ := hshows.undo_addressLog
  obtain ⟨hash, hhash⟩ := lastHash_isSome (List.mem_of_getElem? hcall)
  have hentry : data db (setTxHashes db caches calls).1 call.key = liveValue hash := by
    rw [← hshows.answers, getData_writeHashes, hhash]
    rfl
  rw [hhash]
  constructor
  · rintro ⟨caches'', hundo', hremoved⟩
    rw [hlog', hundo] at hundo'
    obtain rfl := Except.ok.inj hundo'
    have hnone := hremoved call.key
    rw [hsame, if_pos rfl, hentry] at hnone
    by_contra hne
    rw [liveValue_of_ne fun h => hne (by rw [h])] at hnone
    cases hnone
  · intro hempty
    obtain rfl := Option.some.inj hempty
    refine ⟨caches', by rw [hlog', hundo], fun k => ?_⟩
    rw [hsame]
    split
    · next hk => rw [hk, hentry, CScriptDBViewCache.liveValue_nil]
    · rfl

end

/-- The stacks that read the address index exactly, and the logs whose undo removes their entry
alone: those of entries that the sequence itself has removed again. -/
theorem addressIndex_exact_iff (db : CScriptDB) (c : ScriptCache) (base : List ScriptCache) :
    (∀ cKeyId nHeight, ReadExact db (c :: base) cKeyId nHeight ↔ Unmixed db (c :: base) cKeyId nHeight) ∧
      ∀ (calls : List AddressCall) (i : ℕ) (call : AddressCall) (log : CScriptDBOperLog),
        calls[i]? = some call → (setTxHashes db (c :: base) calls).2[i]? = some log →
          (RemovesOnly db (setTxHashes db (c :: base) calls).1 log call.key ↔
            lastHash calls call.key = some []) :=
  ⟨fun _ _ => readExact_iff, fun _ _ _ _ hcall hlog => removesOnly_iff (List.cons_ne_nil c base) hcall hlog⟩

/-! ## Two heights of one key id -/

def sampleAddressCalls : List AddressCall := [⟨5, 1, 0, [7]⟩, ⟨5, 2, 0, [8]⟩]

/-- The first call's log removes nothing. -/
theorem addressIndex_exact_iff_sample :
    ¬ RemovesOnly (Sample.scriptsOf []) (setTxHashes (Sample.scriptsOf []) [∅] sampleAddressCalls).1
      ⟨addrPrefix, []⟩ (addressKey 5 1 0) := by
  have hiff := (addressIndex_exact_iff (Sample.scriptsOf []) ∅ []).2 sampleAddressCalls 0 ⟨5, 1, 0, [7]⟩
    ⟨addrPrefix, []⟩ rfl (by decide +kernel)
  intro hremoved
  exact absurd (hiff.mp hremoved) (by decide +kernel)

/-- A database with one entry. -/
def indexedDB : CScriptDB := Sample.scriptsOf [(addressKey 5 1 0, [7])]

theorem not_belongsTo_other {cKeyId : CKeyID} {nHeight nHeight' nIndex : Int32}
    (h : Codec.i32.write nHeight ≠ Codec.i32.write nHeight') :
    ¬ BelongsTo cKeyId nHeight (addressKey cKeyId nHeight' nIndex) := by
  rintro ⟨nIndex', heq⟩
  have hlen : (addressPreKey cKeyId nHeight').length = (addressPreKey cKeyId nHeight).length := by
    simp [addressPreKey, addressKeyPrefix, addrPrefix, Codec.i32, Codec.u32, Codec.raw, Codec.imap,
      Codec.leNat]
  have hpre := (List.append_inj heq hlen).1
  exact h (List.append_cancel_left hpre).symm

/-- Height 1 is answered with the entry of height 2 as well, a rewritten entry with its first value,
and the entry is still there after the undo. -/
theorem addressIndex_inexact :
    ¬ ReadExact (Sample.scriptsOf []) (setTxHashes (Sample.scriptsOf []) [∅] sampleAddressCalls).1 5 1 ∧
      ¬ ReadExact indexedDB (setTxHashes indexedDB [∅] [⟨5, 1, 0, [8]⟩]).1 5 1 ∧
      (setTxHashes (Sample.scriptsOf []) [∅] sampleAddressCalls).2 = [⟨addrPrefix, []⟩, ⟨addrPrefix, []⟩] ∧
      ¬ RemovesOnly (Sample.scriptsOf []) (setTxHashes (Sample.scriptsOf []) [∅] sampleAddressCalls).1
        ⟨addrPrefix, []⟩ (addressKey 5 2 0) := by
  refine ⟨fun h => ?_, fun h => ?_, by decide +kernel, ?_⟩
  · have hfound := (h (addressKey 5 2 0) [8]).mp (by decide +kernel)
    exact not_belongsTo_other (by decide) hfound.1
  · have hfound := (h (addressKey 5 1 0) [7]).mp (by decide +kernel)
    have hdata : data indexedDB (setTxHashes indexedDB [∅] [⟨5, 1, 0, [8]⟩]).1 (addressKey 5 1 0)
        = some [8] := by decide +kernel
    rw [hdata] at hfound
    cases hfound.2
  · rintro ⟨caches', hundo, hremoved⟩
    have hcaches : setData addrPrefix [] (setTxHashes (Sample.scriptsOf []) [∅] sampleAddressCalls).1
        = caches' := Except.ok.inj hundo
    have hdata : data (Sample.scriptsOf [])
        (setData addrPrefix [] (setTxHashes (Sample.scriptsOf []) [∅] sampleAddressCalls).1)
        (addressKey 5 2 0) = some [8] := by decide +kernel
    have hnone := hremoved (addressKey 5 2 0)
    rw [← hcaches, hdata, if_pos rfl] at hnone
    cases hnone

end ScriptStack

end Dacrs
