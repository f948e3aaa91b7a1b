import Dacrs.Env
import Dacrs.Lib.Store
import Dacrs.Lib.Undo

/-!
# The contract database view

What a stack of `CScriptDBViewCache` over the contract database answers: one map from byte
keys to nonempty byte values (an empty cached value stands for a removed key).  The keys of
the different record kinds are told apart by an ASCII prefix.  Two counters are kept beside
the data: the number of scripts and, per script, the number of its data items.

Every logged write returns a `CScriptDBOperLog` with the old value; `undoScriptData` puts it
back and adjusts the item counter.  `undoScriptData_setScriptData` and
`undoScriptData_eraseScriptData` are the two facts an undo of a contract run rests on.
-/

open Codec (Bytes)

namespace Dacrs

structure CScriptDBOperLog where
  vchKey : Bytes
  vchValue : Bytes
deriving DecidableEq, Inhabited

@[ext] structure CScriptDBViewCache where
  mapDatas : Store Bytes Bytes
  nonempty : ∀ k v, mapDatas.lookup k = some v → v ≠ []

namespace CScriptDBViewCache

/-! ## Keys -/

/-- "def", "data", "acct", "snum", "sdnum", "output", "tx", "T", "ADDR". -/
def defPrefix : Bytes := [100, 101, 102]
def dataPrefix : Bytes := [100, 97, 116, 97]
def acctPrefix : Bytes := [97, 99, 99, 116]
def scriptCountKey : Bytes := [115, 110, 117, 109]
def dataCountPrefix : Bytes := [115, 100, 110, 117, 109]
def outputPrefix : Bytes := [111, 117, 116, 112, 117, 116]
def txRelPrefix : Bytes := [116, 120]
def txIndexPrefix : Bytes := [84]
def addrPrefix : Bytes := [65, 68, 68, 82]

/-- '_'. -/
def underscore : UInt8 := 95

def scriptKey (id : Bytes) : Bytes := defPrefix ++ id
def scriptDataKey (id key : Bytes) : Bytes := dataPrefix ++ id ++ underscore :: key
def scriptAccKey (id user : Bytes) : Bytes := acctPrefix ++ id ++ underscore :: user
def scriptDataCountKey (id : Bytes) : Bytes := dataCountPrefix ++ id
def txOutPutKey (h : Uint256) : Bytes := outputPrefix ++ uint256Codec.write h
def txRelAccountKey (h : Uint256) : Bytes := txRelPrefix ++ uint256Codec.write h
def txIndexKey (h : Uint256) : Bytes := txIndexPrefix ++ uint256Codec.write h

/-! ## The map -/

/-- An empty value removes its key. -/
def liveValue (v : Bytes) : Option Bytes := if v = [] then none else some v

theorem liveValue_ne {v w : Bytes} (h : liveValue v = some w) : w ≠ [] := by
  unfold liveValue at h
  split at h
  · cases h
  · next hne =>
    cases h
    exact hne

@[simp] theorem liveValue_nil : liveValue [] = none := rfl

theorem liveValue_of_ne {v : Bytes} (h : v ≠ []) : liveValue v = some v := if_neg h

section
variable (s : CScriptDBViewCache)

/-- `GetData`. -/
def getData (key : Bytes) : Option Bytes := s.mapDatas.lookup key

/-- `HaveData`. -/
def haveData (key : Bytes) : Bool := (s.getData key).isSome

/-- `SetData`. -/
def setData (key value : Bytes) : CScriptDBViewCache where
  mapDatas := s.mapDatas.put key (liveValue value)
  nonempty k v h := by
    rw [Store.lookup_put] at h
    split at h
    · exact liveValue_ne h
    · exact s.nonempty k v h

/-- The value a `GetData` leaves in a vector that was empty before the call. -/
def oldValue (key : Bytes) : Bytes := (s.getData key).getD []

/-- `EraseKey` of a stored key; it returns false when nothing is stored. -/
def eraseKey (key : Bytes) : Exec CScriptDBViewCache :=
  if s.haveData key then .ok (s.setData key []) else Exec.returnFalse

/-! ## Counters -/

/-- A counter record read into an `int`; a record shorter than four bytes throws. -/
def getCount (key : Bytes) : Exec (Option Int32) :=
  match s.getData key with
  | none => .ok none
  | some v => match Codec.i32.read v with
    | some (n, _) => .ok (some n)
    | none => Exec.throw "end of data"

/-- Zero removes the record, a negative count is refused. -/
def setCount (key : Bytes) (nCount : Int32) : Exec CScriptDBViewCache :=
  if 0 < nCount then .ok (s.setData key (Codec.i32.write nCount))
  else if nCount < 0 then Exec.returnFalse
  else .ok (s.setData key [])

/-- Count one more, an absent record being zero. -/
def increaseCount (key : Bytes) : Exec CScriptDBViewCache := do
  let nCount ← s.getCount key
  s.setCount key (nCount.getD 0 + 1)

/-- Count one less; the record must exist. -/
def decreaseCount (key : Bytes) : Exec CScriptDBViewCache := do
  match ← s.getCount key with
  | none => Exec.returnFalse
  | some nCount => s.setCount key (nCount - 1)

/-- A key about to be written is counted unless it is there already. -/
def increaseUnless (present : Bool) (key : Bytes) : Exec CScriptDBViewCache :=
  if present then .ok s else s.increaseCount key

def decreaseIf (present : Bool) (key : Bytes) : Exec CScriptDBViewCache :=
  if present then s.decreaseCount key else .ok s

/-! ## Scripts -/

def getScript (id : Bytes) : Option Bytes := s.getData (scriptKey id)

def haveScript (id : Bytes) : Bool := s.haveData (scriptKey id)

def setScript (id value : Bytes) : Exec CScriptDBViewCache := do
  let s ← s.increaseUnless (s.haveScript id) scriptCountKey
  return s.setData (scriptKey id) value

def eraseScript (id : Bytes) : Exec CScriptDBViewCache := do
  let s ← s.decreaseIf (s.haveScript id) scriptCountKey
  s.eraseKey (scriptKey id)

/-! ## Contract data -/

def haveScriptData (id key : Bytes) : Bool := s.haveData (scriptDataKey id key)

def setScriptData (id key value : Bytes) : Exec (CScriptDBViewCache × CScriptDBOperLog) := do
  let s ← s.increaseUnless (s.haveScriptData id key) (scriptDataCountKey id)
  return (s.setData (scriptDataKey id key) value,
    ⟨scriptDataKey id key, s.oldValue (scriptDataKey id key)⟩)

def eraseScriptData (id key : Bytes) : Exec (CScriptDBViewCache × CScriptDBOperLog) := do
  let s ← s.decreaseIf (s.haveScriptData id key) (scriptDataCountKey id)
  match s.getData (scriptDataKey id key) with
  | none => Exec.returnFalse
  | some vchValue =>
    let s ← s.eraseKey (scriptDataKey id key)
    return (s, ⟨scriptDataKey id key, vchValue⟩)

/-- The item counter of a data key whose value is put back: it follows when the key appears
or disappears. -/
def undoCount (log : CScriptDBOperLog) : Exec CScriptDBViewCache :=
  let countKey := scriptDataCountKey ((log.vchKey.drop 4).take 6)
  let vchOldValue := s.oldValue log.vchKey
  if log.vchValue = [] then
    if vchOldValue ≠ [] then s.decreaseCount countKey else .ok s
  else
    if vchOldValue = [] then s.increaseCount countKey else .ok s

/-- `UndoScriptData`. -/
def undoScriptData (log : CScriptDBOperLog) : Exec CScriptDBViewCache :=
  if log.vchKey.take 4 = dataPrefix then
    if log.vchKey.length ≤ 10 then Exec.throw "assert(vchKey.size() > 10)"
    else do
      let s ← s.undoCount log
      return s.setData log.vchKey log.vchValue
  else .ok (s.setData log.vchKey log.vchValue)

/-! ## Other logged records -/

/-- Overwrite a key, logging the old value. -/
def setDataLogged (key value : Bytes) : CScriptDBViewCache × CScriptDBOperLog :=
  (s.setData key value, ⟨key, s.oldValue key⟩)

/-- `WriteTxOutPut`. -/
def writeTxOutPut (h : Uint256) (value : Bytes) : CScriptDBViewCache × CScriptDBOperLog :=
  s.setDataLogged (txOutPutKey h) value

/-- `SetTxHashByAddress` logs the bare prefix as its key. -/
def setTxHashByAddress (k : CKeyID) (nHeight nIndex : ℤ) (strTxHash : Bytes) :
    CScriptDBViewCache × CScriptDBOperLog :=
  (s.setData (addrPrefix ++ uint160Codec.write k ++ Codec.i32.write (Int32.ofInt nHeight) ++
      Codec.i32.write (Int32.ofInt nIndex)) strTxHash,
    ⟨addrPrefix, s.oldValue addrPrefix⟩)

/-- `SetTxRelAccout`; it logs nothing. -/
def setTxRelAccout (h : Uint256) (relAccount : Bytes) : CScriptDBViewCache :=
  s.setData (txRelAccountKey h) relAccount

/-- `EraseTxRelAccout`. -/
def eraseTxRelAccout (h : Uint256) : CScriptDBViewCache := s.setData (txRelAccountKey h) []

end

/-! ## Reading after writing -/

section
variable (s : CScriptDBViewCache)

@[simp] theorem setData_mapDatas (key value : Bytes) :
    (s.setData key value).mapDatas = s.mapDatas.put key (liveValue value) := rfl

theorem getData_setData (key value k : Bytes) :
    (s.setData key value).getData k = if k = key then liveValue value else s.getData k :=
  Store.lookup_put s.mapDatas key k (liveValue value)

theorem getData_setData_ne {key k : Bytes} (value : Bytes) (h : k ≠ key) :
    (s.setData key value).getData k = s.getData k := by
  rw [getData_setData, if_neg h]

theorem getData_ne_nil {key v : Bytes} (h : s.getData key = some v) : v ≠ [] := s.nonempty key v h

@[simp] theorem liveValue_oldValue (key : Bytes) : liveValue (s.oldValue key) = s.getData key := by
  unfold oldValue
  cases h : s.getData key with
  | none => rfl
  | some v => exact liveValue_of_ne (s.getData_ne_nil h)

theorem oldValue_eq_nil_iff (key : Bytes) : s.oldValue key = [] ↔ s.getData key = none := by
  rw [← liveValue_oldValue]
  constructor
  · intro h
    rw [h]
    rfl
  · intro h
    unfold liveValue at h
    split at h
    · assumption
    · cases h

theorem oldValue_setData_ne {key k : Bytes} (value : Bytes) (h : k ≠ key) :
    (s.setData key value).oldValue k = s.oldValue k := by
  rw [oldValue, s.getData_setData_ne value h, oldValue]

@[simp] theorem setData_setData (key a b : Bytes) :
    (s.setData key a).setData key b = s.setData key b :=
  CScriptDBViewCache.ext (Store.put_put s.mapDatas key _ _)

theorem setData_comm {key k : Bytes} (a b : Bytes) (h : k ≠ key) :
    (s.setData key a).setData k b = (s.setData k b).setData key a :=
  CScriptDBViewCache.ext (Store.put_comm s.mapDatas _ _ h)

@[simp] theorem setData_oldValue (key : Bytes) : s.setData key (s.oldValue key) = s :=
  CScriptDBViewCache.ext (by rw [setData_mapDatas, liveValue_oldValue]; exact Store.put_lookup _ _)

/-- A write changes nothing exactly when its value is stored already. -/
theorem setData_eq_self_iff (key value : Bytes) :
    s.setData key value = s ↔ s.getData key = liveValue value := by
  constructor
  · intro h
    have hget := s.getData_setData key value key
    rw [if_pos rfl, h] at hget
    exact hget
  · intro h
    refine CScriptDBViewCache.ext ?_
    rw [setData_mapDatas, ← h]
    exact Store.put_lookup _ _

/-- Writing the value that was stored. -/
theorem setData_getData {key v : Bytes} (h : s.getData key = some v) : s.setData key v = s := by
  have hold : s.oldValue key = v := by
    rw [oldValue, h]
    rfl
  rw [← hold, setData_oldValue]

/-- Removing a key that was not stored. -/
theorem setData_nil {key : Bytes} (h : s.getData key = none) : s.setData key [] = s := by
  have hold : s.oldValue key = [] := by
    rw [oldValue, h]
    rfl
  rw [← hold, setData_oldValue]

end

/-! ## Counters count -/

/-- The record of a count: four bytes, or nothing for zero. -/
def countRecord (n : Int32) : Bytes := if 0 < n then Codec.i32.write n else []

/-- A counter record is absent or the four bytes of a positive count. -/
def CanonicalCount (s : CScriptDBViewCache) (key : Bytes) : Prop :=
  ∃ n : Int32, 0 ≤ n ∧ s.oldValue key = countRecord n

/-- Every counter record of the view is canonical. -/
structure CountsCanonical (s : CScriptDBViewCache) : Prop where
  scripts : s.CanonicalCount scriptCountKey
  items : ∀ id, s.CanonicalCount (scriptDataCountKey id)

theorem i32_write_ne_nil (n : Int32) : Codec.i32.write n ≠ [] := by
  intro h
  have hl := congrArg List.length h
  simp [Codec.i32, Codec.u32, Codec.raw, Codec.imap, Codec.leNat] at hl

/-- A nonnegative count that can be raised is positive afterwards. -/
theorem Int32_succ_pos {n : Int32} (h0 : 0 ≤ n) (h1 : 0 ≤ n + 1) : 0 < n + 1 := by
  have hz : (0 : Int32).toInt = 0 := rfl
  have hadd := Int32.toInt_add n 1
  have hlt := n.toInt_lt
  rw [show (1 : Int32).toInt = 1 from rfl, Int.bmod_def] at hadd
  rw [Int32.le_iff_toInt_le, hz] at h0 h1
  rw [Int32.lt_iff_toInt_lt, hz]
  split at hadd <;> omega

theorem Int32_pred_nonneg {n : Int32} (h : 0 < n) : 0 ≤ n - 1 := by
  have hz : (0 : Int32).toInt = 0 := rfl
  have hsub := Int32.toInt_sub n 1
  have hlt := n.toInt_lt
  rw [show (1 : Int32).toInt = 1 from rfl, Int.bmod_def] at hsub
  rw [Int32.lt_iff_toInt_lt, hz] at h
  rw [Int32.le_iff_toInt_le, hz]
  split at hsub <;> omega

section
variable {s s' t : CScriptDBViewCache} {key : Bytes} {n : Int32}

/-- Reading a canonical record. -/
theorem getCount_of_record (h : t.oldValue key = countRecord n) :
    t.getCount key = .ok (if 0 < n then some n else none) := by
  unfold countRecord at h
  unfold getCount
  split at h
  · next hpos =>
    have hd : t.getData key = some (Codec.i32.write n) := by
      rw [← liveValue_oldValue, h, liveValue_of_ne (i32_write_ne_nil n)]
    rw [hd, if_pos hpos]
    dsimp only
    rw [Codec.i32.read_write_nil n trivial]
  · next hpos =>
    rw [(t.oldValue_eq_nil_iff key).mp h, if_neg hpos]

theorem setCount_of_nonneg (h : 0 ≤ n) : s.setCount key n = .ok (s.setData key (countRecord n)) := by
  unfold setCount countRecord
  split
  · rfl
  · rw [if_neg (Int32.not_lt.mpr h)]

theorem setCount_nonneg (h : s.setCount key n = .ok s') : 0 ≤ n := by
  unfold setCount at h
  split at h
  · next hpos => exact Int32.le_of_lt hpos
  · split at h
    · cases h
    · next hneg => exact Int32.not_lt.mp hneg

theorem getD_count (h0 : 0 ≤ n) : (if 0 < n then some n else none).getD 0 = n := by
  split
  · rfl
  · next hpos => exact Int32.le_antisymm h0 (Int32.not_lt.mp hpos)

theorem increaseCount_of_record (h0 : 0 ≤ n) (h1 : 0 ≤ n + 1) (h : t.oldValue key = countRecord n) :
    t.increaseCount key = .ok (t.setData key (countRecord (n + 1))) := by
  unfold increaseCount
  rw [getCount_of_record h, Except.ok_bind, getD_count h0, setCount_of_nonneg h1]

/-- What raising a canonical count can have done. -/
theorem increaseCount_ok (h0 : 0 ≤ n) (h : s.oldValue key = countRecord n)
    (hs : s.increaseCount key = .ok s') :
    0 ≤ n + 1 ∧ s' = s.setData key (countRecord (n + 1)) := by
  have hs' := hs
  unfold increaseCount at hs'
  rw [getCount_of_record h, Except.ok_bind, getD_count h0] at hs'
  have h1 := setCount_nonneg hs'
  rw [increaseCount_of_record h0 h1 h] at hs
  exact ⟨h1, (Except.ok.inj hs).symm⟩

theorem decreaseCount_of_record (hn : 0 < n) (h : t.oldValue key = countRecord n) :
    t.decreaseCount key = .ok (t.setData key (countRecord (n - 1))) := by
  unfold decreaseCount
  rw [getCount_of_record h, Except.ok_bind, if_pos hn]
  exact setCount_of_nonneg (Int32_pred_nonneg hn)

/-- What lowering a canonical count can have done. -/
theorem decreaseCount_ok (h : s.oldValue key = countRecord n)
    (hs : s.decreaseCount key = .ok s') :
    0 < n ∧ s' = s.setData key (countRecord (n - 1)) := by
  have hs' := hs
  unfold decreaseCount at hs'
  rw [getCount_of_record h, Except.ok_bind] at hs'
  by_cases hn : 0 < n
  · rw [decreaseCount_of_record hn h] at hs
    exact ⟨hn, (Except.ok.inj hs).symm⟩
  · rw [if_neg hn] at hs'
    cases hs'

end

/-! ## Undoing contract writes -/

theorem scriptDataKey_ne_countKey (id key id' : Bytes) :
    scriptDataKey id key ≠ scriptDataCountKey id' := by
  intro h
  have hhd := congrArg List.head? h
  simp [scriptDataKey, scriptDataCountKey, dataPrefix, dataCountPrefix] at hhd

section
variable {s s' : CScriptDBViewCache} {id key value : Bytes} {log : CScriptDBOperLog}

/-- Undoing a log of a data key. -/
theorem undoScriptData_dataKey (t : CScriptDBViewCache) (hid : id.length = 6) (old : Bytes) :
    t.undoScriptData ⟨scriptDataKey id key, old⟩ = (do
      let t ←
        (if old = [] then
          if t.oldValue (scriptDataKey id key) ≠ [] then t.decreaseCount (scriptDataCountKey id)
          else .ok t
        else if t.oldValue (scriptDataKey id key) = [] then
          t.increaseCount (scriptDataCountKey id)
        else .ok t : Exec CScriptDBViewCache)
      return t.setData (scriptDataKey id key) old) := by
  have hpre : (scriptDataKey id key).take 4 = dataPrefix := by
    simp [scriptDataKey, dataPrefix]
  have hlen : ¬ (scriptDataKey id key).length ≤ 10 := by
    simp [scriptDataKey, dataPrefix, hid]
    omega
  have hscript : ((scriptDataKey id key).drop 4).take 6 = id := by
    simp [scriptDataKey, dataPrefix, hid]
  unfold undoScriptData undoCount
  rw [if_pos hpre, if_neg hlen]
  simp only [hscript]

/-- What `SetScriptData` did to the counter, when it succeeded. -/
theorem increaseUnless_ok {p : Bool} {key : Bytes} {n : Int32} (h0 : 0 ≤ n)
    (h : s.oldValue key = countRecord n) (hs : s.increaseUnless p key = .ok s') :
    (p = true ∧ s' = s) ∨ (p = false ∧ 0 ≤ n + 1 ∧ s' = s.setData key (countRecord (n + 1))) := by
  unfold increaseUnless at hs
  split at hs
  · next hp =>
    cases hs
    exact .inl ⟨hp, rfl⟩
  · next hp => exact .inr ⟨by simpa using hp, increaseCount_ok h0 h hs⟩

theorem decreaseIf_ok {p : Bool} {key : Bytes} {n : Int32}
    (h : s.oldValue key = countRecord n) (hs : s.decreaseIf p key = .ok s') :
    (p = false ∧ s' = s) ∨ (p = true ∧ 0 < n ∧ s' = s.setData key (countRecord (n - 1))) := by
  unfold decreaseIf at hs
  split at hs
  · next hp => exact .inr ⟨hp, decreaseCount_ok h hs⟩
  · next hp =>
    cases hs
    exact .inl ⟨by simpa using hp, rfl⟩

@[simp] theorem oldValue_setData_self (s : CScriptDBViewCache) (key value : Bytes) :
    (s.setData key value).oldValue key = value := by
  rw [oldValue, getData_setData, if_pos rfl]
  by_cases h : value = []
  · rw [h]
    rfl
  · rw [liveValue_of_ne h]
    rfl

/-- Two writes undone in the order they were made. -/
theorem setData_undo_two (s : CScriptDBViewCache) {k j : Bytes} (a b : Bytes) (h : k ≠ j) :
    (((s.setData j a).setData k b).setData j (s.oldValue j)).setData k (s.oldValue k) = s := by
  rw [setData_comm (s.setData j a) b (s.oldValue j) h.symm, setData_setData, setData_setData,
    setData_oldValue, setData_oldValue]

/-- `UndoScriptData` puts back the value and the item counter `SetScriptData` changed. -/
theorem undoScriptData_setScriptData (hid : id.length = 6) (hval : value ≠ [])
    (hc : s.CanonicalCount (scriptDataCountKey id))
    (h : s.setScriptData id key value = .ok (s', log)) : s'.undoScriptData log = .ok s := by
  have hne := scriptDataKey_ne_countKey id key id
  obtain ⟨n, h0, hn⟩ := hc
  unfold setScriptData at h
  rw [Except.bind_eq_ok] at h
  obtain ⟨s₁, hs₁, h⟩ := h
  cases h
  rw [undoScriptData_dataKey _ hid, oldValue_setData_self]
  rcases increaseUnless_ok h0 hn hs₁ with ⟨hhave, rfl⟩ | ⟨hhave, h1, rfl⟩
  · -- the key was there: its old value is not empty and the counter is left alone
    have hold : s₁.oldValue (scriptDataKey id key) ≠ [] := by
      rw [ne_eq, oldValue_eq_nil_iff]
      intro hnone
      simp [haveScriptData, haveData, hnone] at hhave
    rw [if_neg hold, if_neg hval, Except.ok_bind, setData_setData, setData_oldValue]
    rfl
  · -- the key is new: the counter went up and comes down again
    have hold : s.oldValue (scriptDataKey id key) = [] := by
      rw [oldValue_eq_nil_iff]
      simpa [haveScriptData, haveData] using hhave
    have hcnt : ((s.setData (scriptDataCountKey id) (countRecord (n + 1))).setData
        (scriptDataKey id key) value).oldValue (scriptDataCountKey id) = countRecord (n + 1) := by
      rw [oldValue_setData_ne _ _ hne.symm, oldValue_setData_self]
    rw [oldValue_setData_ne _ _ hne, if_pos hold, if_pos hval,
      decreaseCount_of_record (Int32_succ_pos h0 h1) hcnt, Except.ok_bind, Int32.add_sub_cancel,
      ← hn, setData_undo_two s _ _ hne]
    rfl

/-- Likewise for `EraseScriptData`. -/
theorem undoScriptData_eraseScriptData (hid : id.length = 6)
    (hc : s.CanonicalCount (scriptDataCountKey id))
    (h : s.eraseScriptData id key = .ok (s', log)) : s'.undoScriptData log = .ok s := by
  have hne := scriptDataKey_ne_countKey id key id
  obtain ⟨n, h0, hn⟩ := hc
  unfold eraseScriptData at h
  rw [Except.bind_eq_ok] at h
  obtain ⟨s₁, hs₁, h⟩ := h
  cases hd : s₁.getData (scriptDataKey id key) with
  | none =>
    rw [hd] at h
    cases h
  | some vchValue =>
    rw [hd] at h
    dsimp only at h
    rw [Except.bind_eq_ok] at h
    obtain ⟨s₂, hs₂, h⟩ := h
    cases h
    have hv : vchValue ≠ [] := s₁.getData_ne_nil hd
    have hs₂' : s' = s₁.setData (scriptDataKey id key) [] := by
      unfold eraseKey at hs₂
      split at hs₂
      · exact (Except.ok.inj hs₂).symm
      · cases hs₂
    subst hs₂'
    rw [undoScriptData_dataKey _ hid, oldValue_setData_self, if_neg hv]
    rcases decreaseIf_ok hn hs₁ with ⟨hhave, rfl⟩ | ⟨hhave, hpos, rfl⟩
    · -- nothing was stored, so the call would have returned false
      simp [haveScriptData, haveData, hd] at hhave
    · have hold : s.oldValue (scriptDataKey id key) = vchValue := by
        rw [getData_setData_ne _ _ hne] at hd
        rw [oldValue, hd]
        rfl
      have hcnt : ((s.setData (scriptDataCountKey id) (countRecord (n - 1))).setData
          (scriptDataKey id key) []).oldValue (scriptDataCountKey id) = countRecord (n - 1) := by
        rw [oldValue_setData_ne _ _ hne.symm, oldValue_setData_self]
      have hup : n - 1 + 1 = n := Int32.sub_add_cancel n 1
      rw [if_pos rfl, increaseCount_of_record (Int32_pred_nonneg hpos) (by rwa [hup]) hcnt,
        Except.ok_bind, hup, ← hn, ← hold, setData_undo_two s _ _ hne]
      rfl

theorem scriptKey_ne_countKey (id : Bytes) : scriptKey id ≠ scriptCountKey := by
  intro h
  have hhd := congrArg List.head? h
  simp [scriptKey, scriptCountKey, defPrefix] at hhd

theorem haveScript_eq_false_iff (id : Bytes) :
    s.haveScript id = false ↔ s.oldValue (scriptKey id) = [] := by
  rw [oldValue_eq_nil_iff, haveScript, haveData, Option.isSome_eq_false_iff, Option.isNone_iff_eq_none]

/-- Raising any counter leaves a canonical record. -/
theorem increaseCount_record {key : Bytes} (h : s.increaseCount key = .ok s') :
    ∃ n : Int32, 0 ≤ n + 1 ∧ s' = s.setData key (countRecord (n + 1)) := by
  unfold increaseCount at h
  rw [Except.bind_eq_ok] at h
  obtain ⟨o, -, h⟩ := h
  have h1 := setCount_nonneg h
  rw [setCount_of_nonneg h1] at h
  exact ⟨_, h1, (Except.ok.inj h).symm⟩

/-- `EraseScript` takes `SetScript` back exactly when there was no script and the counter was
in order. -/
theorem eraseScript_setScript_iff (hval : value ≠ []) (h : s.setScript id value = .ok s') :
    s'.eraseScript id = .ok s ↔ s.haveScript id = false ∧ s.CanonicalCount scriptCountKey := by
  have hne := scriptKey_ne_countKey id
  unfold setScript at h
  rw [Except.bind_eq_ok] at h
  obtain ⟨s₁, hs₁, h⟩ := h
  obtain rfl := Except.ok.inj h
  have hhave' : (s₁.setData (scriptKey id) value).haveScript id = true := by
    rw [haveScript, haveData, getData_setData, if_pos rfl, liveValue_of_ne hval]
    rfl
  unfold increaseUnless at hs₁
  split at hs₁
  · next hhave =>
    -- the script was there: erasing cannot bring it back
    obtain rfl := Except.ok.inj hs₁
    refine iff_of_false ?_ (fun hc => by rw [hc.1] at hhave; cases hhave)
    intro herase
    unfold eraseScript at herase
    rw [Except.bind_eq_ok] at herase
    obtain ⟨s₂, -, herase⟩ := herase
    unfold eraseKey at herase
    split at herase
    · have hs := Except.ok.inj herase
      have hgone : s.haveScript id = false := by
        rw [← hs, haveScript, haveData, getData_setData, if_pos rfl]
        rfl
      rw [hgone] at hhave
      cases hhave
    · cases herase
  · next hhave =>
    have hnone : s.haveScript id = false := by simpa using hhave
    have hold : s.oldValue (scriptKey id) = [] := haveScript_eq_false_iff id |>.mp hnone
    obtain ⟨n, h1, rfl⟩ := increaseCount_record hs₁
    have hcnt : ((s.setData scriptCountKey (countRecord (n + 1))).setData
        (scriptKey id) value).oldValue scriptCountKey = countRecord (n + 1) := by
      rw [oldValue_setData_ne _ _ hne.symm, oldValue_setData_self]
    constructor
    · intro herase
      refine ⟨hnone, n, ?_⟩
      unfold eraseScript decreaseIf at herase
      rw [if_pos hhave', Except.bind_eq_ok] at herase
      obtain ⟨s₂, hs₂, herase⟩ := herase
      obtain ⟨hpos, rfl⟩ := decreaseCount_ok hcnt hs₂
      rw [Int32.add_sub_cancel] at herase
      have hn0 : 0 ≤ n := by
        have := Int32_pred_nonneg hpos
        rwa [Int32.add_sub_cancel] at this
      refine ⟨hn0, ?_⟩
      unfold eraseKey at herase
      split at herase
      · have hs := Except.ok.inj herase
        rw [← hs, oldValue_setData_ne _ _ hne.symm, oldValue_setData_self]
      · cases herase
    · rintro ⟨-, m, h0, hm⟩
      -- the parsed count is the canonical one
      obtain ⟨hm1, heq⟩ := increaseCount_ok h0 hm hs₁
      have hrec : countRecord (m + 1) = countRecord (n + 1) := by
        have hold := congrArg (fun t => t.oldValue scriptCountKey) heq
        simpa using hold.symm
      rw [← hrec] at hcnt ⊢
      unfold eraseScript decreaseIf
      rw [hrec, if_pos hhave', ← hrec, decreaseCount_of_record (Int32_succ_pos h0 hm1) hcnt,
        Except.ok_bind, Int32.add_sub_cancel, ← hm, eraseKey, if_pos, ← hold,
        setData_undo_two s _ _ hne]
      rw [haveData, getData_setData_ne _ _ hne, getData_setData, if_pos rfl, liveValue_of_ne hval]
      rfl

/-- `SetScript` changes nothing exactly when the same script is stored already. -/
theorem setScript_eq_self_iff (hval : value ≠ []) (h : s.setScript id value = .ok s') :
    s' = s ↔ s.getScript id = some value := by
  unfold setScript at h
  rw [Except.bind_eq_ok] at h
  obtain ⟨s₁, hs₁, h⟩ := h
  obtain rfl := Except.ok.inj h
  constructor
  · intro heq
    rw [getScript, ← heq, getData_setData, if_pos rfl, liveValue_of_ne hval]
  · intro hget
    have hhave : s.haveScript id = true := by
      rw [haveScript, haveData]
      rw [getScript] at hget
      rw [hget]
      rfl
    rw [hhave] at hs₁
    obtain rfl := Except.ok.inj hs₁
    exact setData_getData s hget

/-- A key of another kind: the log alone restores it. -/
theorem undoScriptData_setDataLogged (s : CScriptDBViewCache) {key : Bytes} (value : Bytes)
    (hk : key.take 4 ≠ dataPrefix) :
    (s.setDataLogged key value).1.undoScriptData (s.setDataLogged key value).2 = .ok s := by
  unfold setDataLogged undoScriptData
  rw [if_neg hk, setData_setData, setData_oldValue]

end

end CScriptDBViewCache

end Dacrs
