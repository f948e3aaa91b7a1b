import Dacrs.ScriptCache
import Dacrs.ContractData
import Dacrs.Connect
import Dacrs.Sample

/-!
# The logged operations on a stack of script caches

The writes of a contract and their undo, as the caches carry them out: every read leaves copies,
every write goes to the top cache.  A stack shows a flat view (`Shows`), and each operation does to
the stack what the operation of the module ScriptView does to that view, so what is known of the
flat journal holds of every stack (`undoLogs_runLogged`).
-/

open Codec (Bytes)

namespace Dacrs

open CScriptDBViewCache (liveValue liveValue_ne liveValue_of_ne scriptDataKey scriptDataCountKey
  dataPrefix scriptAccKey txOutPutKey txIndexKey)

namespace ScriptStack

section
variable (db : CScriptDB) (caches : List ScriptCache)

/-! ## Counters -/

/-- A counter record read into an `int`. -/
def getCount (key : Bytes) : Exec (Option Int32 × List ScriptCache) :=
  match getData db caches key with
  | (none, caches) => .ok (none, caches)
  | (some v, caches) => match Codec.i32.read v with
    | some (nCount, _) => .ok (some nCount, caches)
    | none => Exec.throw "end of data"

def getScriptDataCount (id : Bytes) : Exec (Option Int32 × List ScriptCache) :=
  getCount db caches (scriptDataCountKey id)

def setScriptDataCount (id : Bytes) (nCount : Int32) : Exec (List ScriptCache) :=
  if 0 < nCount then .ok (setData (scriptDataCountKey id) (Codec.i32.write nCount) caches)
  else if nCount < 0 then Exec.returnFalse
  else .ok (setData (scriptDataCountKey id) [] caches)

/-- One item more, whether or not the counter could be read. -/
def countUp (id : Bytes) : Exec (List ScriptCache) := do
  let (nCount, caches) ← getScriptDataCount db caches id
  setScriptDataCount caches id (nCount.getD 0 + 1)

/-- One item less; the counter must be readable. -/
def countDown (id : Bytes) : Exec (List ScriptCache) := do
  match ← getScriptDataCount db caches id with
  | (none, _) => Exec.returnFalse
  | (some nCount, caches) => setScriptDataCount caches id (nCount - 1)

/-- A key about to be written is counted unless it is there already. -/
def countUnless (present : Bool) (id : Bytes) : Exec (List ScriptCache) :=
  if present then .ok caches else countUp db caches id

def uncountIf (present : Bool) (id : Bytes) : Exec (List ScriptCache) :=
  if present then countDown db caches id else .ok caches

/-! ## Logged writes -/

/-- The old value is read into the log, then the key is overwritten. -/
def setDataLogged (key value : Bytes) : List ScriptCache × CScriptDBOperLog :=
  let (vchOldValue, caches) := getData db caches key
  (setData key value caches, ⟨key, vchOldValue.getD []⟩)

def setScriptData (id key value : Bytes) : Exec (List ScriptCache × CScriptDBOperLog) := do
  let caches ← countUnless db caches (haveData db caches (scriptDataKey id key)) id
  return setDataLogged db caches (scriptDataKey id key) value

def eraseScriptData (id key : Bytes) : Exec (List ScriptCache × CScriptDBOperLog) := do
  let caches ← uncountIf db caches (haveData db caches (scriptDataKey id key)) id
  match getData db caches (scriptDataKey id key) with
  | (none, _) => Exec.returnFalse
  | (some vchValue, caches) =>
    match eraseKey db (scriptDataKey id key) caches with
    | (false, _) => Exec.returnFalse
    | (true, caches) => return (caches, ⟨scriptDataKey id key, vchValue⟩)

def setScriptAcc (r : CRegID) (a : CAppUserAccout) : List ScriptCache × CScriptDBOperLog :=
  setDataLogged db caches (scriptAccKey r.getVec6 a.vuchAccUserID) (CAppUserAccout.codec.write a)

/-- A `vector<CVmOperate>` on the wire. -/
def writeVmOperates (vcOutput : List CVmOperate) : Bytes :=
  Codec.writeCompactSize vcOutput.length ++ vcOutput.flatMap CVmOperate.serialize

def writeTxOutPut (cTxId : Uint256) (vcOutput : List CVmOperate) :
    List ScriptCache × CScriptDBOperLog :=
  setDataLogged db caches (txOutPutKey cTxId) (writeVmOperates vcOutput)

/-- One log for each entry. -/
def writeTxIndex (list : List (Uint256 × DiskBlockPos × UInt32)) :
    List ScriptCache × List CScriptDBOperLog :=
  list.foldl (fun st it =>
    let (caches, log) := setDataLogged db st.1 (txIndexKey it.1) (writeDiskTxPos it.2.1 it.2.2)
    (caches, st.2 ++ [log])) (caches, [])

/-! ## Undo -/

/-- The value `UndoScriptData` compares with: the entry of the top cache, else what `GetData`
leaves in an empty vector. -/
def undoOldValue (key : Bytes) : Bytes × List ScriptCache :=
  match caches.head?.bind fun c => c.lookup key with
  | some v => (v, caches)
  | none => let (v, caches) := getData db caches key
    (v.getD [], caches)

/-- The item counter follows when the key appears or disappears. -/
def undoCount (log : CScriptDBOperLog) : Exec (List ScriptCache) :=
  let vchScriptId := (log.vchKey.drop 4).take 6
  let (vchOldValue, caches) := undoOldValue db caches log.vchKey
  if log.vchValue = [] then
    if vchOldValue ≠ [] then countDown db caches vchScriptId else .ok caches
  else
    if vchOldValue = [] then countUp db caches vchScriptId else .ok caches

def undoScriptData (log : CScriptDBOperLog) : Exec (List ScriptCache) :=
  if log.vchKey.take 4 = dataPrefix then
    if log.vchKey.length ≤ 10 then Exec.throw "assert(vchKey.size() > 10)"
    else do
      let caches ← undoCount db caches log
      return setData log.vchKey log.vchValue caches
  else .ok (setData log.vchKey log.vchValue caches)

end

/-! ## Runs -/

/-- A logged call.  Both interpreters refuse an empty value. -/
inductive LoggedCall
  | setScriptData (r : CRegID) (key value : Bytes) (nonempty : value ≠ [])
  | eraseScriptData (r : CRegID) (key : Bytes)
  | setScriptAcc (r : CRegID) (a : CAppUserAccout)
  | writeTxOutPut (cTxId : Uint256) (vcOutput : List CVmOperate)
  | writeTxIndex (list : List (Uint256 × DiskBlockPos × UInt32))

/-- The caches and the logs of one call. -/
def LoggedCall.run (db : CScriptDB) (caches : List ScriptCache) :
    LoggedCall → Exec (List ScriptCache × List CScriptDBOperLog)
  | .setScriptData r key value _ => do
    let (caches, log) ← ScriptStack.setScriptData db caches r.getVec6 key value
    return (caches, [log])
  | .eraseScriptData r key => do
    let (caches, log) ← ScriptStack.eraseScriptData db caches r.getVec6 key
    return (caches, [log])
  | .setScriptAcc r a => do
    let (caches, log) := ScriptStack.setScriptAcc db caches r a
    return (caches, [log])
  | .writeTxOutPut cTxId vcOutput => do
    let (caches, log) := ScriptStack.writeTxOutPut db caches cTxId vcOutput
    return (caches, [log])
  | .writeTxIndex list => .ok (ScriptStack.writeTxIndex db caches list)

/-- A sequence of calls, and the logs in the order they were recorded. -/
def runLogged (db : CScriptDB) (caches : List ScriptCache) (calls : List LoggedCall) :
    Exec (List ScriptCache × List CScriptDBOperLog) :=
  calls.foldlM (fun st call => do
    let (caches, logs) ← call.run db st.1
    return (caches, st.2 ++ logs)) (caches, [])

/-- The logs are undone from the last one to the first. -/
def undoLogs (db : CScriptDB) (caches : List ScriptCache) (logs : List CScriptDBOperLog) :
    Exec (List ScriptCache) :=
  logs.reverse.foldlM (undoScriptData db) caches

/-! ## What a stack shows -/

/-- The flat view with the same answers. -/
def view (db : CScriptDB) : List ScriptCache → CScriptDBViewCache
  | [] => db
  | c :: base => c.entries.foldl (fun s e => s.setData e.1 e.2) (view db base)

theorem getData_view (db : CScriptDB) (caches : List ScriptCache) (key : Bytes) :
    (view db caches).getData key = data db caches key := by
  induction caches with
  | nil => rfl
  | cons c base ih =>
    have hloop := Overlay.foldl_keyed
      (fun (s : CScriptDBViewCache) e => s.setData e.1 e.2) CScriptDBViewCache.getData
      (fun _ v _ => liveValue v)
      (fun s e key => CScriptDBViewCache.getData_setData s e.1 e.2 key) c (view db base) key
    refine hloop.trans ?_
    cases hc : c.lookup key with
    | some v => rw [data_cons_of_some hc]
    | none =>
      rw [data_cons_of_none hc]
      exact ih

theorem haveData_eq (db : CScriptDB) (caches : List ScriptCache) (key : Bytes) :
    haveData db caches key = (data db caches key).isSome := by
  induction caches with
  | nil => rfl
  | cons c base ih =>
    unfold haveData
    cases hc : c.lookup key with
    | none =>
      rw [data_cons_of_none hc]
      exact ih
    | some v =>
      rw [data_cons_of_some hc]
      by_cases hv : v = []
      · simp [hv]
      · simp [hv, liveValue_of_ne hv]

/-- The caches above a database answer like a flat view. -/
structure Shows (db : CScriptDB) (caches : List ScriptCache) (s : CScriptDBViewCache) : Prop where
  cached : caches ≠ []
  answers : ∀ key, s.getData key = data db caches key

/-- The same of caches that come with a log. -/
def ShowsLogged {α : Type} (db : CScriptDB) (p : List ScriptCache × α) (q : CScriptDBViewCache × α) :
    Prop :=
  Shows db p.1 q.1 ∧ p.2 = q.2

section
variable {db : CScriptDB} {caches : List ScriptCache} {s : CScriptDBViewCache} {id key value : Bytes}

theorem Shows.view (h : caches ≠ []) : Shows db caches (view db caches) := ⟨h, getData_view db caches⟩

theorem Shows.getData (h : Shows db caches s) (key : Bytes) :
    (getData db caches key).1 = s.getData key ∧ Shows db (getData db caches key).2 s := by
  obtain ⟨hval, hsame⟩ := getData_spec db caches key
  refine ⟨by rw [hval, h.answers], ?_, fun k => by rw [h.answers, hsame k]⟩
  cases caches with
  | nil => exact absurd rfl h.cached
  | cons c base =>
    obtain ⟨c', base', heq, -⟩ := @getData_below db c base key
    rw [heq]
    exact List.cons_ne_nil c' base'

theorem Shows.haveData (h : Shows db caches s) (key : Bytes) :
    haveData db caches key = s.haveData key := by
  rw [CScriptDBViewCache.haveData, h.answers]
  exact haveData_eq db caches key

theorem Shows.setData (h : Shows db caches s) (key value : Bytes) :
    Shows db (setData key value caches) (s.setData key value) := by
  cases caches with
  | nil => exact absurd rfl h.cached
  | cons c base =>
    refine ⟨List.cons_ne_nil _ _, fun k => ?_⟩
    rw [CScriptDBViewCache.getData_setData, h.answers]
    show _ = data db (c.insert key value :: base) k
    by_cases hk : k = key
    · subst hk
      rw [if_pos rfl, data_cons_of_some (AList.lookup_insert c)]
    · rw [if_neg hk]
      refine Overlay.resolve_cons_congr ?_ fun _ => rfl
      unfold level
      rw [AList.lookup_insert_ne hk]

/-- Erasing what a read has just found. -/
theorem Shows.eraseKey (h : Shows db caches s) {v : Bytes} (hv : s.getData key = some v) :
    ∃ caches', eraseKey db key caches = (true, caches') ∧ Shows db caches' (s.setData key []) := by
  cases caches with
  | nil => exact absurd rfl h.cached
  | cons c base =>
    have hset := h.setData key []
    rw [ScriptStack.eraseKey]
    cases hc : c.lookup key with
    | some w => exact ⟨_, rfl, hset⟩
    | none =>
      obtain ⟨hval, hsame⟩ := getData_spec db base key
      rw [h.answers, data_cons_of_none hc, ← hval] at hv
      rcases hg : ScriptStack.getData db base key with ⟨o, base'⟩
      rw [hg] at hv hsame
      obtain rfl : o = some v := hv
      refine ⟨_, rfl, List.cons_ne_nil _ _, fun k => ?_⟩
      rw [hset.answers]
      exact (Overlay.resolve_cons_congr rfl fun _ => (hsame k).symm)

/-! ## Each operation does to the stack what it does to the view -/

theorem Shows.getCount (h : Shows db caches s) (key : Bytes) :
    Except.Rel (fun p nCount => p.1 = nCount ∧ Shows db p.2 s) (getCount db caches key)
      (s.getCount key) := by
  obtain ⟨hval, hshows⟩ := h.getData key
  unfold ScriptStack.getCount CScriptDBViewCache.getCount
  rw [← hval]
  rcases hg : ScriptStack.getData db caches key with ⟨o, caches'⟩
  rw [hg] at hshows
  cases o with
  | none => exact ⟨rfl, hshows⟩
  | some v =>
    dsimp only
    cases Codec.i32.read v with
    | none => exact .error _
    | some r => exact ⟨rfl, hshows⟩

theorem Shows.setScriptDataCount (h : Shows db caches s) (id : Bytes) (nCount : Int32) :
    Except.Rel (Shows db) (setScriptDataCount caches id nCount)
      (s.setCount (scriptDataCountKey id) nCount) := by
  unfold ScriptStack.setScriptDataCount CScriptDBViewCache.setCount
  split
  · exact h.setData _ _
  · split
    · exact .error _
    · exact h.setData _ _

theorem Shows.countUp (h : Shows db caches s) (id : Bytes) :
    Except.Rel (Shows db) (countUp db caches id) (s.increaseCount (scriptDataCountKey id)) := by
  refine (h.getCount (scriptDataCountKey id)).bind ?_
  rintro ⟨_, caches'⟩ nCount ⟨rfl, h'⟩
  exact h'.setScriptDataCount id _

theorem Shows.countDown (h : Shows db caches s) (id : Bytes) :
    Except.Rel (Shows db) (countDown db caches id) (s.decreaseCount (scriptDataCountKey id)) := by
  refine (h.getCount (scriptDataCountKey id)).bind ?_
  rintro ⟨nCount, caches'⟩ _ ⟨rfl, h'⟩
  cases nCount with
  | none => exact .error _
  | some nCount => exact h'.setScriptDataCount id _

theorem Shows.countUnless (h : Shows db caches s) (present : Bool) (id : Bytes) :
    Except.Rel (Shows db) (countUnless db caches present id)
      (s.increaseUnless present (scriptDataCountKey id)) := by
  unfold ScriptStack.countUnless CScriptDBViewCache.increaseUnless
  split
  · exact h
  · exact h.countUp id

theorem Shows.uncountIf (h : Shows db caches s) (present : Bool) (id : Bytes) :
    Except.Rel (Shows db) (uncountIf db caches present id)
      (s.decreaseIf present (scriptDataCountKey id)) := by
  unfold ScriptStack.uncountIf CScriptDBViewCache.decreaseIf
  split
  · exact h.countDown id
  · exact h

theorem Shows.setDataLogged (h : Shows db caches s) (key value : Bytes) :
    ShowsLogged db (setDataLogged db caches key value) (s.setDataLogged key value) := by
  obtain ⟨hval, hshows⟩ := h.getData key
  refine ⟨hshows.setData key value, ?_⟩
  show CScriptDBOperLog.mk key _ = CScriptDBOperLog.mk key _
  rw [hval]
  rfl

theorem Shows.setScriptData (h : Shows db caches s) (id key value : Bytes) :
    Except.Rel (ShowsLogged db) (setScriptData db caches id key value)
      (s.setScriptData id key value) := by
  unfold ScriptStack.setScriptData CScriptDBViewCache.setScriptData
  rw [h.haveData]
  refine (h.countUnless _ id).bind fun caches' s' h' => ?_
  exact h'.setDataLogged (scriptDataKey id key) value

theorem Shows.eraseScriptData (h : Shows db caches s) (id key : Bytes) :
    Except.Rel (ShowsLogged db) (eraseScriptData db caches id key) (s.eraseScriptData id key) := by
  unfold ScriptStack.eraseScriptData CScriptDBViewCache.eraseScriptData
  rw [h.haveData]
  refine (h.uncountIf _ id).bind fun caches' s' h' => ?_
  obtain ⟨hval, hshows⟩ := h'.getData (scriptDataKey id key)
  rcases hg : ScriptStack.getData db caches' (scriptDataKey id key) with ⟨o, caches''⟩
  rw [hg] at hval hshows
  cases hs : s'.getData (scriptDataKey id key) with
  | none =>
    rw [hs] at hval
    obtain rfl : o = none := hval
    exact .error _
  | some v =>
    rw [hs] at hval
    obtain rfl : o = some v := hval
    obtain ⟨caches₃, herase, hshows'⟩ := hshows.eraseKey hs
    dsimp only
    rw [herase, CScriptDBViewCache.eraseKey, if_pos (by rw [CScriptDBViewCache.haveData, hs]; rfl)]
    exact ⟨hshows', rfl⟩

theorem Shows.undoOldValue (h : Shows db caches s) (key : Bytes) :
    (undoOldValue db caches key).1 = s.oldValue key ∧ Shows db (undoOldValue db caches key).2 s := by
  cases caches with
  | nil => exact absurd rfl h.cached
  | cons c base =>
    unfold ScriptStack.undoOldValue CScriptDBViewCache.oldValue
    rw [List.head?_cons, Option.bind_some]
    cases hc : c.lookup key with
    | some v =>
      refine ⟨?_, h⟩
      rw [h.answers, data_cons_of_some hc]
      by_cases hv : v = []
      · rw [hv]
        rfl
      · rw [liveValue_of_ne hv]
        rfl
    | none =>
      obtain ⟨hval, hshows⟩ := h.getData key
      refine ⟨?_, hshows⟩
      show (ScriptStack.getData db (c :: base) key).1.getD [] = _
      rw [hval]

theorem Shows.undoCount (h : Shows db caches s) (log : CScriptDBOperLog) :
    Except.Rel (Shows db) (undoCount db caches log) (s.undoCount log) := by
  obtain ⟨hval, hshows⟩ := h.undoOldValue log.vchKey
  unfold ScriptStack.undoCount CScriptDBViewCache.undoCount
  rw [← hval]
  rcases hg : ScriptStack.undoOldValue db caches log.vchKey with ⟨vchOldValue, caches'⟩
  rw [hg] at hshows
  dsimp only
  split
  · split
    · exact hshows.countDown _
    · exact hshows
  · split
    · exact hshows.countUp _
    · exact hshows

theorem Shows.undoScriptData (h : Shows db caches s) (log : CScriptDBOperLog) :
    Except.Rel (Shows db) (undoScriptData db caches log) (s.undoScriptData log) := by
  unfold ScriptStack.undoScriptData CScriptDBViewCache.undoScriptData
  split
  · split
    · exact .error _
    · exact (h.undoCount log).bind fun caches' s' h' => h'.setData log.vchKey log.vchValue
  · exact h.setData log.vchKey log.vchValue

end

/-! ## The flat journal -/

end ScriptStack

namespace CScriptDBViewCache

/-- Every item counter is a record that `SetScriptDataCount` can have left. -/
def ItemCounts (s : CScriptDBViewCache) : Prop :=
  ∀ r : CRegID, s.CanonicalCount (scriptDataCountKey r.getVec6)

section
variable {s s' : CScriptDBViewCache} {key : Bytes} {n : Int32} {logs : List CScriptDBOperLog}

theorem ItemCounts.setData (h : s.ItemCounts) (value : Bytes) (hkey : key.head? ≠ some countInitial) :
    (s.setData key value).ItemCounts := by
  intro r
  refine (h r).setData_ne value ?_
  intro he
  exact hkey (by rw [← he]; rfl)

theorem ItemCounts.setCount (h : s.ItemCounts) (h0 : 0 ≤ n) :
    (s.setData key (countRecord n)).ItemCounts := by
  intro r
  by_cases hk : scriptDataCountKey r.getVec6 = key
  · rw [hk]
    exact .setData_self h0
  · exact (h r).setData_ne _ hk

/-- From `s` to `s'` with logs that undo it, the counters in order. -/
structure Journal (s : CScriptDBViewCache) (logs : List CScriptDBOperLog) (s' : CScriptDBViewCache) :
    Prop where
  trail : Undo.Trail undoScriptData s logs s'
  counts : s'.ItemCounts

theorem Journal.append {t : CScriptDBViewCache} {logs' : List CScriptDBOperLog}
    (h : Journal s logs t) (h' : Journal t logs' s') : Journal s (logs ++ logs') s' :=
  ⟨h.trail.append h'.trail, h'.counts⟩

theorem ItemCounts.journal_setScriptData (h : s.ItemCounts) {r : CRegID} {value : Bytes}
    {log : CScriptDBOperLog} (hval : value ≠ [])
    (hs : s.setScriptData r.getVec6 key value = .ok (s', log)) : Journal s [log] s' := by
  refine ⟨.single (undoScriptData_setScriptData r.length_getVec6 hval (h r) hs), ?_⟩
  unfold CScriptDBViewCache.setScriptData at hs
  rw [Except.bind_eq_ok] at hs
  obtain ⟨s₁, h1, hs⟩ := hs
  obtain ⟨rfl, rfl⟩ := Prod.mk.inj (Except.ok.inj hs)
  have h₁ : s₁.ItemCounts := by
    unfold increaseUnless at h1
    split at h1
    · obtain rfl := Except.ok.inj h1
      exact h
    · obtain ⟨n, hn, rfl⟩ := increaseCount_record h1
      exact h.setCount hn
  exact h₁.setData value (by simp [scriptDataKey_head, countInitial])

theorem ItemCounts.journal_eraseScriptData (h : s.ItemCounts) {r : CRegID}
    {log : CScriptDBOperLog} (hs : s.eraseScriptData r.getVec6 key = .ok (s', log)) :
    Journal s [log] s' := by
  refine ⟨.single (undoScriptData_eraseScriptData r.length_getVec6 (h r) hs), ?_⟩
  unfold CScriptDBViewCache.eraseScriptData at hs
  rw [Except.bind_eq_ok] at hs
  obtain ⟨s₁, h1, hs⟩ := hs
  have h₁ : s₁.ItemCounts := by
    obtain ⟨n, h0, hn⟩ := h r
    rcases decreaseIf_ok hn h1 with ⟨-, rfl⟩ | ⟨-, hpos, rfl⟩
    · exact h
    · exact h.setCount (Int32_pred_nonneg hpos)
  cases hd : s₁.getData (scriptDataKey r.getVec6 key) with
  | none =>
    rw [hd] at hs
    cases hs
  | some old =>
    rw [hd] at hs
    dsimp only at hs
    rw [Except.bind_eq_ok] at hs
    obtain ⟨s₂, h2, hs⟩ := hs
    obtain ⟨rfl, rfl⟩ := Prod.mk.inj (Except.ok.inj hs)
    unfold eraseKey at h2
    split at h2
    · obtain rfl := Except.ok.inj h2
      exact h₁.setData [] (by simp [scriptDataKey_head, countInitial])
    · cases h2

/-- A record of another kind. -/
theorem ItemCounts.journal_setDataLogged (h : s.ItemCounts) (value : Bytes)
    (hdata : key.take 4 ≠ dataPrefix) (hcount : key.head? ≠ some countInitial) :
    Journal s [(s.setDataLogged key value).2] (s.setDataLogged key value).1 :=
  ⟨.single (s.undoScriptData_setDataLogged value hdata), h.setData value hcount⟩

end

end CScriptDBViewCache

namespace ScriptStack

open CScriptDBViewCache (Journal ItemCounts)

/-- What a call does to the flat view. -/
def LoggedCall.apply (s : CScriptDBViewCache) :
    LoggedCall → Exec (CScriptDBViewCache × List CScriptDBOperLog)
  | .setScriptData r key value _ => do
    let (s, log) ← s.setScriptData r.getVec6 key value
    return (s, [log])
  | .eraseScriptData r key => do
    let (s, log) ← s.eraseScriptData r.getVec6 key
    return (s, [log])
  | .setScriptAcc r a =>
    let (s, log) := s.setScriptAcc r a
    .ok (s, [log])
  | .writeTxOutPut cTxId vcOutput =>
    let (s, log) := s.writeTxOutPut cTxId (writeVmOperates vcOutput)
    .ok (s, [log])
  | .writeTxIndex list =>
    .ok (CBlock.writeTxIndex s (list.map fun it => (txIndexKey it.1, writeDiskTxPos it.2.1 it.2.2)))

section
variable {db : CScriptDB} {caches caches' : List ScriptCache} {s s' : CScriptDBViewCache}
  {calls : List LoggedCall} {logs : List CScriptDBOperLog}

theorem Shows.writeTxIndex (h : Shows db caches s) (list : List (Uint256 × DiskBlockPos × UInt32)) :
    ShowsLogged db (writeTxIndex db caches list)
      (CBlock.writeTxIndex s (list.map fun it => (txIndexKey it.1, writeDiskTxPos it.2.1 it.2.2))) := by
  have hfrom : ∀ (list : List (Uint256 × DiskBlockPos × UInt32)) (p : List ScriptCache × List CScriptDBOperLog)
      (q : CScriptDBViewCache × List CScriptDBOperLog), ShowsLogged db p q → ShowsLogged db
        (list.foldl (fun st it =>
          let (caches, log) := ScriptStack.setDataLogged db st.1 (txIndexKey it.1)
            (writeDiskTxPos it.2.1 it.2.2)
          (caches, st.2 ++ [log])) p)
        ((list.map fun it => (txIndexKey it.1, writeDiskTxPos it.2.1 it.2.2)).foldl (fun st item =>
          let (s, log) := st.1.setDataLogged item.1 item.2
          (s, st.2 ++ [log])) q) := by
    intro list
    induction list with
    | nil => exact fun p q hpq => hpq
    | cons it list ih =>
      rintro ⟨caches, logs⟩ ⟨s, _⟩ ⟨hs, rfl⟩
      obtain ⟨hs', hlog⟩ := hs.setDataLogged (txIndexKey it.1) (writeDiskTxPos it.2.1 it.2.2)
      rw [List.map_cons, List.foldl_cons, List.foldl_cons]
      apply ih
      exact ⟨hs', congrArg (fun log => logs ++ [log]) hlog⟩
  exact hfrom list (caches, []) (s, []) ⟨h, rfl⟩

theorem Shows.run (h : Shows db caches s) (call : LoggedCall) :
    Except.Rel (ShowsLogged db) (call.run db caches) (call.apply s) := by
  have hone : ∀ (p : List ScriptCache × CScriptDBOperLog) (q : CScriptDBViewCache × CScriptDBOperLog),
      ShowsLogged db p q → ShowsLogged db (p.1, [p.2]) (q.1, [q.2]) := by
    rintro p q ⟨hpq, hlog⟩
    exact ⟨hpq, congrArg (fun log => [log]) hlog⟩
  cases call with
  | setScriptData r key value hne => exact (h.setScriptData _ key value).bind hone
  | eraseScriptData r key => exact (h.eraseScriptData _ key).bind hone
  | setScriptAcc r a => exact hone _ _ (h.setDataLogged _ _)
  | writeTxOutPut cTxId vcOutput => exact hone _ _ (h.setDataLogged _ _)
  | writeTxIndex list => exact h.writeTxIndex list

theorem journal_writeTxIndex (h : s.ItemCounts) (list : List (Uint256 × Bytes)) :
    Journal s (CBlock.writeTxIndex s (list.map fun it => (txIndexKey it.1, it.2))).2
      (CBlock.writeTxIndex s (list.map fun it => (txIndexKey it.1, it.2))).1 := by
  have hfrom : ∀ (list : List (Uint256 × Bytes)) (st : CScriptDBViewCache × List CScriptDBOperLog),
      Journal s st.2 st.1 → ∀ st', (list.map fun it => (txIndexKey it.1, it.2)).foldl (fun st item =>
        let (s, log) := st.1.setDataLogged item.1 item.2
        (s, st.2 ++ [log])) st = st' → Journal s st'.2 st'.1 := by
    intro list
    induction list with
    | nil =>
      rintro st hst _ rfl
      exact hst
    | cons it list ih =>
      intro st hst st' heq
      refine ih _ (hst.append (hst.counts.journal_setDataLogged it.2 ?_ ?_)) st' heq
      · simp [txIndexKey, CScriptDBViewCache.txIndexPrefix, dataPrefix]
      · simp [txIndexKey, CScriptDBViewCache.txIndexPrefix, CScriptDBViewCache.countInitial]
  exact hfrom list (s, []) ⟨.nil, h⟩ _ rfl

/-- One call on the flat view. -/
theorem LoggedCall.journal (h : s.ItemCounts) {call : LoggedCall}
    (hs : call.apply s = .ok (s', logs)) : Journal s logs s' := by
  cases call with
  | setScriptData r key value hne =>
    obtain ⟨⟨s₁, log⟩, h1, hs⟩ := Except.bind_eq_ok.mp hs
    obtain ⟨rfl, rfl⟩ := Prod.mk.inj (Except.ok.inj hs)
    exact h.journal_setScriptData hne h1
  | eraseScriptData r key =>
    obtain ⟨⟨s₁, log⟩, h1, hs⟩ := Except.bind_eq_ok.mp hs
    obtain ⟨rfl, rfl⟩ := Prod.mk.inj (Except.ok.inj hs)
    exact h.journal_eraseScriptData h1
  | setScriptAcc r a =>
    obtain ⟨rfl, rfl⟩ := Prod.mk.inj (Except.ok.inj hs)
    apply h.journal_setDataLogged
    · simp [scriptAccKey, CScriptDBViewCache.acctPrefix, dataPrefix]
    · simp [scriptAccKey, CScriptDBViewCache.acctPrefix, CScriptDBViewCache.countInitial]
  | writeTxOutPut cTxId vcOutput =>
    obtain ⟨rfl, rfl⟩ := Prod.mk.inj (Except.ok.inj hs)
    apply h.journal_setDataLogged
    · simp [txOutPutKey, CScriptDBViewCache.outputPrefix, dataPrefix]
    · simp [txOutPutKey, CScriptDBViewCache.outputPrefix, CScriptDBViewCache.countInitial]
  | writeTxIndex list =>
    obtain ⟨rfl, rfl⟩ := Prod.mk.inj (Except.ok.inj hs)
    have hj := journal_writeTxIndex h (list.map fun it => (it.1, writeDiskTxPos it.2.1 it.2.2))
    rw [List.map_map] at hj
    exact hj

theorem Shows.runLogged (h : Shows db caches s) (hs : s.ItemCounts)
    (hrun : runLogged db caches calls = .ok (caches', logs)) :
    ∃ s', Shows db caches' s' ∧ Journal s logs s' := by
  have hinv := Except.foldlM_invariant
    (fun st : List ScriptCache × List CScriptDBOperLog => ∃ s', Shows db st.1 s' ∧ Journal s st.2 s')
    _ calls ?_ ⟨s, h, .nil, hs⟩ hrun
  · exact hinv
  · rintro ⟨caches₁, logs₁⟩ call ⟨caches₂, logs₂⟩ - ⟨s₁, h₁, hj₁⟩ hcall
    obtain ⟨⟨caches₃, logs₃⟩, hone, heq⟩ := Except.bind_eq_ok.mp hcall
    obtain ⟨rfl, rfl⟩ := Prod.mk.inj (Except.ok.inj heq)
    obtain ⟨⟨s₃, _⟩, happly, h₃, rfl⟩ := (h₁.run call).ok_left hone
    exact ⟨s₃, h₃, hj₁.append (call.journal hj₁.counts happly)⟩

/-- The item counters of a stack are records that `SetScriptDataCount` can have left. -/
def ItemCountsInOrder (db : CScriptDB) (caches : List ScriptCache) : Prop :=
  ∀ r : CRegID, ∃ n : Int32, 0 ≤ n ∧
    data db caches (scriptDataCountKey r.getVec6) = liveValue (CScriptDBViewCache.countRecord n)

theorem Shows.itemCounts_iff (h : Shows db caches s) :
    s.ItemCounts ↔ ItemCountsInOrder db caches := by
  refine forall_congr' fun r => exists_congr fun n => and_congr_right fun h0 => ?_
  rw [← h.answers, ← CScriptDBViewCache.liveValue_oldValue]
  constructor
  · intro hold
    rw [hold]
  · intro hlive
    unfold CScriptDBViewCache.oldValue
    rw [← CScriptDBViewCache.liveValue_oldValue, hlive]
    unfold CScriptDBViewCache.countRecord
    split
    · rw [liveValue_of_ne (CScriptDBViewCache.i32_write_ne_nil n)]
      rfl
    · rfl

/-- Undoing the logs of a sequence of calls leaves every key with the value it had. -/
def JournalUndoes (db : CScriptDB) (caches : List ScriptCache) (calls : List LoggedCall) : Prop :=
  ∀ caches' logs, runLogged db caches calls = .ok (caches', logs) →
    ∃ caches'', undoLogs db caches' logs = .ok caches'' ∧ SameAnswers db caches caches''

/-- With the item counters in order the logs undo every sequence, and the counters stay in
order on the way. -/
theorem journal_undoes (db : CScriptDB) (c : ScriptCache) (base : List ScriptCache)
    (calls : List LoggedCall) (hcounts : ItemCountsInOrder db (c :: base)) :
    JournalUndoes db (c :: base) calls ∧
      ∀ caches' logs, runLogged db (c :: base) calls = .ok (caches', logs) →
        ItemCountsInOrder db caches' := by
  have h : Shows db (c :: base) (view db (c :: base)) := Shows.view (List.cons_ne_nil c base)
  rw [← h.itemCounts_iff] at hcounts
  constructor
  · intro caches' logs hrun
    obtain ⟨s', h', hj⟩ := h.runLogged hcounts hrun
    have hback := Except.Rel.foldlM (fun a b log hab => hab.undoScriptData log) logs.reverse h'
    obtain ⟨caches'', hundo, h''⟩ := hback.ok_right hj.trail.undoAll
    exact ⟨caches'', hundo, fun key => by rw [← h''.answers, ← h.answers]⟩
  · intro caches' logs hrun
    obtain ⟨s', h', hj⟩ := h.runLogged hcounts hrun
    exact h'.itemCounts_iff.mp hj.counts

/-- A key written twice and erased, an output and an index entry, over two empty caches. -/
def sampleCalls : List LoggedCall :=
  [.setScriptData ⟨1, 0⟩ [7] [8] (by decide), .setScriptData ⟨1, 0⟩ [7] [9, 9] (by decide),
    .writeTxOutPut 5 [], .eraseScriptData ⟨1, 0⟩ [7], .writeTxIndex [(6, ⟨0, 0⟩, 3)]]

theorem journal_undoes_sample :
    JournalUndoes (Sample.scriptsOf []) [∅, ∅] sampleCalls ∧
      (runLogged (Sample.scriptsOf []) [∅, ∅] sampleCalls).toOption.isSome = true := by
  refine ⟨(journal_undoes (Sample.scriptsOf []) ∅ [∅] sampleCalls fun r => ⟨0, by decide, ?_⟩).1, ?_⟩
  · rw [data_cons_of_none (AList.lookup_empty _), data_cons_of_none (AList.lookup_empty _)]
    exact Finmap.lookup_empty _
  · decide +kernel

/-- A database whose counter of one script is a written zero, which `SetScriptDataCount` never
leaves. -/
def zeroCountDB : CScriptDB :=
  Sample.scriptsOf [(scriptDataCountKey (CRegID.mk 1 0).getVec6, [0, 0, 0, 0])]

/-- The first item of that script; undoing it removes the record. -/
theorem zeroCount_not_restored :
    ¬ JournalUndoes zeroCountDB [∅] [.setScriptData ⟨1, 0⟩ [7] [8] (by decide)] := by
  intro h
  have hrun : ((runLogged zeroCountDB [∅] [.setScriptData ⟨1, 0⟩ [7] [8] (by decide)] >>= fun st =>
      (fun caches => data zeroCountDB caches (scriptDataCountKey (CRegID.mk 1 0).getVec6)) <$>
        undoLogs zeroCountDB st.1 st.2).toOption) = some none := by decide +kernel
  have hbefore : data zeroCountDB [∅] (scriptDataCountKey (CRegID.mk 1 0).getVec6)
      = some [0, 0, 0, 0] := by decide +kernel
  cases hlogged : runLogged zeroCountDB [∅] [.setScriptData ⟨1, 0⟩ [7] [8] (by decide)] with
  | error e =>
    rw [hlogged] at hrun
    cases hrun
  | ok st =>
    obtain ⟨caches'', hundo, hsame⟩ := h st.1 st.2 hlogged
    rw [hlogged, Except.ok_bind, hundo] at hrun
    have hafter : data zeroCountDB caches'' (scriptDataCountKey (CRegID.mk 1 0).getVec6) = none :=
      Option.some.inj hrun
    rw [← hsame, hafter] at hbefore
    cases hbefore

end

end ScriptStack

end Dacrs
