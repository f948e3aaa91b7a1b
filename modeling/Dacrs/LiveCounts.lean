import Mathlib.Data.Set.Card
import Mathlib.Logic.Relation
import Dacrs.ScriptJournal

/-!
# The counters count what is live

Beside the records the contract database keeps two kinds of counters: how many scripts there are
and, for each script, how many data items.  Every operation moves a counter by what it found under
its key and by whether the value it writes is empty (`adjust`); `counts_stay_exact` follows over
every sequence of writes, removals and undos.
-/

open Codec (Bytes)

namespace Dacrs

/-! ## Scripts on a stack -/

namespace ScriptStack

open CScriptDBViewCache (scriptKey scriptCountKey scriptDataKey scriptDataCountKey)

section
variable (db : CScriptDB) (caches : List ScriptCache)

def getScriptCount : Exec (Option Int32 × List ScriptCache) := getCount db caches scriptCountKey

def setScriptCount (nCount : Int32) : Exec (List ScriptCache) :=
  if 0 < nCount then .ok (setData scriptCountKey (Codec.i32.write nCount) caches)
  else if nCount < 0 then Exec.returnFalse
  else .ok (setData scriptCountKey [] caches)

/-- One script more, whether or not the counter could be read. -/
def scriptsUp : Exec (List ScriptCache) := do
  let (nCount, caches) ← getScriptCount db caches
  setScriptCount caches (nCount.getD 0 + 1)

/-- One script less; the counter must be readable. -/
def scriptsDown : Exec (List ScriptCache) := do
  match ← getScriptCount db caches with
  | (none, _) => Exec.returnFalse
  | (some nCount, caches) => setScriptCount caches (nCount - 1)

/-- `HaveScript` -/
def haveScript (r : CRegID) : Bool := haveData db caches (scriptKey r.getVec6)

def scriptsUnless (present : Bool) : Exec (List ScriptCache) :=
  if present then .ok caches else scriptsUp db caches

def scriptsIf (present : Bool) : Exec (List ScriptCache) :=
  if present then scriptsDown db caches else .ok caches

def setScript (r : CRegID) (vchValue : Bytes) : Exec (List ScriptCache) := do
  let caches ← scriptsUnless db caches (haveScript db caches r)
  return setData (scriptKey r.getVec6) vchValue caches

/-- `EraseKey`, whose false is passed on. -/
def eraseKeyOrFail (key : Bytes) : Exec (List ScriptCache) :=
  match eraseKey db key caches with
  | (true, caches) => .ok caches
  | (false, _) => Exec.returnFalse

def eraseScript (r : CRegID) : Exec (List ScriptCache) := do
  let caches ← scriptsIf db caches (haveScript db caches r)
  eraseKeyOrFail db caches (scriptKey r.getVec6)

end

section
variable {db : CScriptDB} {caches : List ScriptCache} {s : CScriptDBViewCache}

theorem Shows.setScriptCount (h : Shows db caches s) (nCount : Int32) :
    Except.Rel (Shows db) (setScriptCount caches nCount) (s.setCount scriptCountKey nCount) := by
  unfold ScriptStack.setScriptCount CScriptDBViewCache.setCount
  split
  · exact h.setData _ _
  · split
    · exact .error _
    · exact h.setData _ _

theorem Shows.scriptsUp (h : Shows db caches s) :
    Except.Rel (Shows db) (scriptsUp db caches) (s.increaseCount scriptCountKey) := by
  refine (h.getCount scriptCountKey).bind ?_
  rintro ⟨_, caches'⟩ nCount ⟨rfl, h'⟩
  exact h'.setScriptCount _

theorem Shows.scriptsDown (h : Shows db caches s) :
    Except.Rel (Shows db) (scriptsDown db caches) (s.decreaseCount scriptCountKey) := by
  refine (h.getCount scriptCountKey).bind ?_
  rintro ⟨nCount, caches'⟩ _ ⟨rfl, h'⟩
  cases nCount with
  | none => exact .error _
  | some nCount => exact h'.setScriptCount _

theorem Shows.scriptsUnless (h : Shows db caches s) (present : Bool) :
    Except.Rel (Shows db) (scriptsUnless db caches present)
      (s.increaseUnless present scriptCountKey) := by
  unfold ScriptStack.scriptsUnless CScriptDBViewCache.increaseUnless
  split
  · exact h
  · exact h.scriptsUp

theorem Shows.scriptsIf (h : Shows db caches s) (present : Bool) :
    Except.Rel (Shows db) (scriptsIf db caches present) (s.decreaseIf present scriptCountKey) := by
  unfold ScriptStack.scriptsIf CScriptDBViewCache.decreaseIf
  split
  · exact h.scriptsDown
  · exact h

theorem Shows.setScript (h : Shows db caches s) (r : CRegID) (vchValue : Bytes) :
    Except.Rel (Shows db) (setScript db caches r vchValue) (s.setScript r.getVec6 vchValue) := by
  have hhave : haveScript db caches r = s.haveScript r.getVec6 := h.haveData _
  unfold ScriptStack.setScript
  rw [hhave]
  exact (h.scriptsUnless _).bind fun caches' s' h' => h'.setData _ _

/-- `EraseKey` returns true for a key that is removed already, and changes nothing then. -/
theorem Shows.eraseKeyOrFail (h : Shows db caches s) {key : Bytes} {caches' : List ScriptCache}
    (he : eraseKeyOrFail db caches key = .ok caches') : Shows db caches' (s.setData key []) := by
  cases caches with
  | nil => exact absurd rfl h.cached
  | cons c base =>
    have hset := h.setData key []
    unfold ScriptStack.eraseKeyOrFail at he
    rw [ScriptStack.eraseKey] at he
    cases hc : c.lookup key with
    | some w =>
      rw [hc] at he
      obtain rfl := Except.ok.inj he
      exact hset
    | none =>
      obtain ⟨-, hsame⟩ := getData_spec db base key
      rw [hc] at he
      rcases hg : ScriptStack.getData db base key with ⟨o, base'⟩
      rw [hg] at he hsame
      cases o with
      | none => cases he
      | some v =>
        obtain rfl := Except.ok.inj he
        refine ⟨List.cons_ne_nil _ _, fun k => ?_⟩
        rw [hset.answers]
        exact (Overlay.resolve_cons_congr rfl fun _ => (hsame k).symm)

end

end ScriptStack

/-! ## One counter and what it counts -/

namespace CScriptDBViewCache

/-- The scripts, or the data items of one script. -/
inductive Counter
  | scripts
  | items (r : CRegID)

def Counter.countKey : Counter → Bytes
  | .scripts => scriptCountKey
  | .items r => scriptDataCountKey r.getVec6

def Counter.itemKey : Counter → Bytes → Bytes
  | .scripts, x => scriptKey x
  | .items r, x => scriptDataKey r.getVec6 x

theorem Counter.countKey_inj {c c' : Counter} (h : c.countKey = c'.countKey) : c = c' := by
  have hsecond := congrArg (fun b => b[1]?) h
  cases c with
  | scripts =>
    cases c' with
    | scripts => rfl
    | items r => simp [countKey, scriptCountKey, scriptDataCountKey, dataCountPrefix] at hsecond
  | items r =>
    cases c' with
    | scripts => simp [countKey, scriptCountKey, scriptDataCountKey, dataCountPrefix] at hsecond
    | items r' => rw [CRegID.getVec6_inj (List.append_cancel_left h)]

theorem Counter.itemKey_ne_countKey (c c' : Counter) (x : Bytes) : c.itemKey x ≠ c'.countKey := by
  intro h
  have hhead := congrArg List.head? h
  cases c <;> cases c' <;>
    simp [itemKey, countKey, scriptKey, scriptDataKey, scriptCountKey, scriptDataCountKey, defPrefix,
      dataPrefix, dataCountPrefix] at hhead

/-- An item belongs to one counter: the six bytes of the id say where its own key begins. -/
theorem Counter.itemKey_inj {c c' : Counter} {x y : Bytes} (h : c.itemKey x = c'.itemKey y) :
    c = c' ∧ x = y := by
  have hsecond := congrArg (fun b => b[1]?) h
  cases c with
  | scripts =>
    cases c' with
    | scripts => exact ⟨rfl, List.append_cancel_left h⟩
    | items r => simp [itemKey, scriptKey, scriptDataKey, defPrefix, dataPrefix] at hsecond
  | items r =>
    cases c' with
    | scripts => simp [itemKey, scriptKey, scriptDataKey, defPrefix, dataPrefix] at hsecond
    | items r' =>
      have hids : r.getVec6 ++ underscore :: x = r'.getVec6 ++ underscore :: y := by
        have hcut : dataPrefix ++ (r.getVec6 ++ underscore :: x)
            = dataPrefix ++ (r'.getVec6 ++ underscore :: y) := by
          rw [← List.append_assoc, ← List.append_assoc]
          exact h
        exact List.append_cancel_left hcut
      have hsplit := List.append_inj hids (r.length_getVec6.trans r'.length_getVec6.symm)
      rw [CRegID.getVec6_inj hsplit.1]
      exact ⟨rfl, (List.cons.inj hsplit.2).2⟩

section
variable (s : CScriptDBViewCache) (c : Counter)

/-- What is there to count. -/
def live : Set Bytes := fun x => s.haveData (c.itemKey x) = true

/-- The counter, read as `GetScriptCount` and `GetScriptDataCount` read it, is the number of items. -/
def Counted : Prop :=
  ∃ n : ℕ, (s.live c).encard = n ∧ ∃ nCount, s.getCount c.countKey = .ok nCount ∧
    (nCount.getD 0).toInt = n

/-- What an operation does to the counter before it writes a value under an item's key. -/
def adjust (present : Bool) (value : Bytes) : Exec CScriptDBViewCache :=
  if value = [] then s.decreaseIf present c.countKey else s.increaseUnless present c.countKey

end

/-- Every counter is exact. -/
def CountsExact (s : CScriptDBViewCache) : Prop := ∀ c, s.Counted c

section
variable {s s' : CScriptDBViewCache} {c c' : Counter} {x value : Bytes} {n : ℕ}

theorem mem_live : x ∈ s.live c ↔ s.haveData (c.itemKey x) = true := Iff.rfl

theorem haveData_setData (key k : Bytes) :
    (s.setData key value).haveData k = if k = key then decide (value ≠ []) else s.haveData k := by
  unfold haveData
  rw [getData_setData]
  split
  · unfold liveValue
    split <;> simp_all
  · rfl

theorem getCount_setData_ne {key k : Bytes} (h : k ≠ key) :
    (s.setData key value).getCount k = s.getCount k := by
  unfold getCount
  rw [getData_setData_ne s value h]

/-- A counter record is no item. -/
theorem live_setData_count : (s.setData c'.countKey value).live c = s.live c := by
  ext y
  rw [mem_live, mem_live, haveData_setData, if_neg (c.itemKey_ne_countKey c' y)]

theorem live_setData_other (h : c ≠ c') : (s.setData (c'.itemKey x) value).live c = s.live c := by
  ext y
  rw [mem_live, mem_live, haveData_setData, if_neg]
  exact fun heq => h (Counter.itemKey_inj heq).1

theorem live_setData_put (h : value ≠ []) :
    (s.setData (c.itemKey x) value).live c = insert x (s.live c) := by
  ext y
  rw [mem_live, haveData_setData, Set.mem_insert_iff, mem_live]
  by_cases hy : y = x
  · simp [hy, h]
  · rw [if_neg fun heq => hy (Counter.itemKey_inj heq).2]
    simp [hy]

theorem live_setData_nil : (s.setData (c.itemKey x) []).live c = s.live c \ {x} := by
  ext y
  rw [mem_live, haveData_setData, Set.mem_sdiff, Set.mem_singleton_iff, mem_live]
  by_cases hy : y = x
  · simp [hy]
  · rw [if_neg fun heq => hy (Counter.itemKey_inj heq).2]
    simp [hy]

/-! ## One write -/

theorem Counted.congr (h : s.Counted c) (hlive : s'.live c = s.live c)
    (hcount : s'.getCount c.countKey = s.getCount c.countKey) : s'.Counted c := by
  obtain ⟨n, hn, hread⟩ := h
  refine ⟨n, ?_, ?_⟩
  · rw [hlive]
    exact hn
  · rw [hcount]
    exact hread

/-- A write under an item's key leaves the counter records alone. -/
theorem getCount_setData_item :
    (s.setData (c'.itemKey x) value).getCount c.countKey = s.getCount c.countKey :=
  getCount_setData_ne fun h => Counter.itemKey_ne_countKey c' c x h.symm

/-- The value of a count that was set. -/
theorem getCount_setCount {n : Int32} (h : 0 ≤ n) (key : Bytes) :
    ∃ nCount, (s.setData key (countRecord n)).getCount key = .ok nCount ∧ nCount.getD 0 = n :=
  ⟨_, getCount_of_record (oldValue_setData_self s key _), getD_count h⟩

theorem toInt_succ {n : Int32} (h0 : 0 ≤ n) (h1 : 0 ≤ n + 1) : (n + 1).toInt = n.toInt + 1 := by
  have hz : (0 : Int32).toInt = 0 := rfl
  have hadd := Int32.toInt_add n 1
  have hlt := n.toInt_lt
  rw [show (1 : Int32).toInt = 1 from rfl, Int.bmod_def] at hadd
  rw [Int32.le_iff_toInt_le, hz] at h0 h1
  split at hadd <;> omega

theorem toInt_pred {n : Int32} (h : 0 ≤ n) : (n - 1).toInt = n.toInt - 1 := by
  have hz : (0 : Int32).toInt = 0 := rfl
  have hsub := Int32.toInt_sub n 1
  have hlt := n.toInt_lt
  rw [show (1 : Int32).toInt = 1 from rfl, Int.bmod_def] at hsub
  rw [Int32.le_iff_toInt_le, hz] at h
  split at hsub <;> omega

/-- The counter after `++nCount`. -/
theorem increaseCount_value {key : Bytes} {nCount : Option Int32} (hread : s.getCount key = .ok nCount)
    (hnat : (nCount.getD 0).toInt = n) (hs : s.increaseCount key = .ok s') :
    (∃ record, s' = s.setData key record) ∧
      ∃ nCount', s'.getCount key = .ok nCount' ∧ (nCount'.getD 0).toInt = (n + 1 : ℕ) := by
  unfold increaseCount at hs
  rw [hread, Except.ok_bind] at hs
  have hnonneg := setCount_nonneg hs
  rw [setCount_of_nonneg hnonneg] at hs
  obtain rfl := Except.ok.inj hs
  obtain ⟨nCount', hread', hvalue'⟩ := getCount_setCount (s := s) hnonneg key
  refine ⟨⟨_, rfl⟩, nCount', hread', ?_⟩
  have hold : (0 : Int32) ≤ nCount.getD 0 := by
    rw [Int32.le_iff_toInt_le, hnat]
    exact Int.natCast_nonneg n
  rw [hvalue', toInt_succ hold hnonneg, hnat]
  rfl

/-- One more item, one more counted. -/
theorem Counted.increase (h : s.Counted c) (hx : x ∉ s.live c) (hvalue : value ≠ [])
    (hs : s.increaseCount c.countKey = .ok s') :
    (s'.setData (c.itemKey x) value).Counted c ∧ ∃ record, s' = s.setData c.countKey record := by
  obtain ⟨n, hn, nCount, hread, hnat⟩ := h
  obtain ⟨⟨record, rfl⟩, nCount', hread', hnat'⟩ := increaseCount_value hread hnat hs
  refine ⟨⟨n + 1, ?_, nCount', ?_, hnat'⟩, record, rfl⟩
  · rw [live_setData_put hvalue, live_setData_count, Set.encard_insert_of_notMem hx, hn]
    rfl
  · rw [getCount_setData_item, hread']

/-- One item less, one less counted. -/
theorem Counted.decrease (h : s.Counted c) (hx : x ∈ s.live c)
    (hs : s.decreaseCount c.countKey = .ok s') :
    (s'.setData (c.itemKey x) []).Counted c ∧ ∃ record, s' = s.setData c.countKey record := by
  obtain ⟨n, hn, nCount, hread, hnat⟩ := h
  unfold decreaseCount at hs
  rw [hread, Except.ok_bind] at hs
  cases nCount with
  | none => cases hs
  | some nCount =>
    dsimp only at hs
    have hnonneg := setCount_nonneg hs
    rw [setCount_of_nonneg hnonneg] at hs
    obtain rfl := Except.ok.inj hs
    have hnat' : nCount.toInt = n := hnat
    have hold : (0 : Int32) ≤ nCount := by
      rw [Int32.le_iff_toInt_le, hnat']
      exact Int.natCast_nonneg n
    have hless : ((s.live c) \ {x}).encard + 1 = n := by
      rw [Set.encard_sdiff_singleton_add_one hx, hn]
    obtain ⟨m, hm⟩ : ∃ m : ℕ, ((s.live c) \ {x}).encard = m := by
      refine ENat.ne_top_iff_exists.mp ?_ |>.imp fun m h => h.symm
      intro htop
      rw [htop] at hless
      cases hless
    have hmn : m + 1 = n := by
      rw [hm] at hless
      exact_mod_cast hless
    refine ⟨⟨m, ?_, ?_⟩, _, rfl⟩
    · rw [live_setData_nil, live_setData_count, hm]
    · obtain ⟨nCount', hread', hvalue'⟩ := getCount_setCount (s := s) hnonneg c.countKey
      refine ⟨nCount', by rw [getCount_setData_item, hread'], ?_⟩
      rw [hvalue', toInt_pred hold, hnat']
      omega

/-- An operation that moves the counter and writes the value keeps every counter exact. -/
theorem CountsExact.write (h : s.CountsExact)
    (hs : s.adjust c (s.haveData (c.itemKey x)) value = .ok s') :
    (s'.setData (c.itemKey x) value).CountsExact := by
  have hone : (s'.setData (c.itemKey x) value).Counted c ∧
      (s' = s ∨ ∃ record, s' = s.setData c.countKey record) := by
    unfold adjust at hs
    by_cases hvalue : value = []
    · rw [if_pos hvalue] at hs
      subst hvalue
      unfold decreaseIf at hs
      split at hs
      · next hx =>
        obtain ⟨hcounted, hrecord⟩ := (h c).decrease hx hs
        exact ⟨hcounted, .inr hrecord⟩
      · next hx =>
        obtain rfl := Except.ok.inj hs
        refine ⟨(h c).congr ?_ getCount_setData_item, .inl rfl⟩
        rw [live_setData_nil]
        exact Set.sdiff_singleton_eq_self hx
    · rw [if_neg hvalue] at hs
      unfold increaseUnless at hs
      split at hs
      · next hx =>
        obtain rfl := Except.ok.inj hs
        refine ⟨(h c).congr ?_ getCount_setData_item, .inl rfl⟩
        rw [live_setData_put hvalue]
        exact Set.insert_eq_of_mem hx
      · next hx =>
        obtain ⟨hcounted, hrecord⟩ := (h c).increase hx hvalue hs
        exact ⟨hcounted, .inr hrecord⟩
  intro c'
  by_cases hc : c' = c
  · rw [hc]
    exact hone.1
  · -- another counter: neither its record nor its items were touched
    have hrecord : s'.live c' = s.live c' ∧ s'.getCount c'.countKey = s.getCount c'.countKey := by
      obtain rfl | ⟨record, rfl⟩ := hone.2
      · exact ⟨rfl, rfl⟩
      · exact ⟨live_setData_count, getCount_setData_ne fun heq => hc (Counter.countKey_inj heq)⟩
    refine (h c').congr ?_ ?_
    · rw [live_setData_other hc, hrecord.1]
    · rw [getCount_setData_item, hrecord.2]

/-! ## The operations -/

theorem CountsExact.setScriptData (h : s.CountsExact) {r : CRegID} {log : CScriptDBOperLog}
    (hvalue : value ≠ []) (hs : s.setScriptData r.getVec6 x value = .ok (s', log)) :
    s'.CountsExact ∧ log.vchKey = scriptDataKey r.getVec6 x := by
  obtain ⟨t, hcount, hwrite⟩ := Except.bind_eq_ok.mp hs
  obtain ⟨rfl, rfl⟩ := Prod.mk.inj (Except.ok.inj hwrite)
  refine ⟨h.write (c := .items r) ?_, rfl⟩
  unfold adjust
  rw [if_neg hvalue]
  exact hcount

theorem CountsExact.eraseScriptData (h : s.CountsExact) {r : CRegID} {log : CScriptDBOperLog}
    (hs : s.eraseScriptData r.getVec6 x = .ok (s', log)) :
    s'.CountsExact ∧ log.vchKey = scriptDataKey r.getVec6 x := by
  obtain ⟨t, hcount, hrest⟩ := Except.bind_eq_ok.mp hs
  split at hrest
  · cases hrest
  · obtain ⟨t', herase, hlog⟩ := Except.bind_eq_ok.mp hrest
    obtain ⟨rfl, rfl⟩ := Prod.mk.inj (Except.ok.inj hlog)
    unfold eraseKey at herase
    split at herase
    · obtain rfl := Except.ok.inj herase
      exact ⟨h.write (c := .items r) hcount, rfl⟩
    · cases herase

/-- `UndoScriptData` moves the counter by what it finds and by what it puts back. -/
theorem CountsExact.undoScriptData (h : s.CountsExact) {r : CRegID} {log : CScriptDBOperLog}
    (hkey : log.vchKey = scriptDataKey r.getVec6 x) (hs : s.undoScriptData log = .ok s') :
    s'.CountsExact := by
  obtain ⟨vchKey, vchValue⟩ := log
  obtain rfl : vchKey = scriptDataKey r.getVec6 x := hkey
  rw [undoScriptData_dataKey s r.length_getVec6] at hs
  obtain ⟨t, hcount, hwrite⟩ := Except.bind_eq_ok.mp hs
  obtain rfl := Except.ok.inj hwrite
  refine h.write (c := .items r) ?_
  have hpresent : s.haveData (scriptDataKey r.getVec6 x) = true ↔
      s.oldValue (scriptDataKey r.getVec6 x) ≠ [] := by
    unfold haveData
    rw [Option.isSome_iff_ne_none]
    exact (oldValue_eq_nil_iff s _).not.symm
  unfold adjust decreaseIf increaseUnless
  rw [← hcount]
  show (if vchValue = [] then
      if s.haveData (scriptDataKey r.getVec6 x) = true then s.decreaseCount (scriptDataCountKey r.getVec6)
      else .ok s
    else if s.haveData (scriptDataKey r.getVec6 x) = true then .ok s
      else s.increaseCount (scriptDataCountKey r.getVec6)) = _
  by_cases hold : s.oldValue (scriptDataKey r.getVec6 x) = []
  · have habsent : ¬ s.haveData (scriptDataKey r.getVec6 x) = true := fun hp => hpresent.mp hp hold
    rw [if_neg habsent, if_neg habsent, if_neg (not_not.mpr hold), if_pos hold]
  · rw [if_pos (hpresent.mpr hold), if_pos (hpresent.mpr hold), if_pos hold, if_neg hold]

theorem CountsExact.setScript (h : s.CountsExact) {id : Bytes} (hvalue : value ≠ [])
    (hs : s.setScript id value = .ok s') : s'.CountsExact := by
  obtain ⟨t, hcount, hwrite⟩ := Except.bind_eq_ok.mp hs
  obtain rfl := Except.ok.inj hwrite
  refine h.write (c := .scripts) (x := id) ?_
  unfold adjust
  rw [if_neg hvalue]
  exact hcount

/-- `SetScript` counts a script whose value is empty, and such a script is not there. -/
theorem Counted.setScript_nil {id : Bytes} (h : s.Counted .scripts) (hid : s.haveScript id = false)
    (hs : s.setScript id [] = .ok s') : ¬ s'.Counted .scripts := by
  obtain ⟨n, hn, nCount, hread, hnat⟩ := h
  obtain ⟨t, hcount, hwrite⟩ := Except.bind_eq_ok.mp hs
  obtain rfl := Except.ok.inj hwrite
  rw [hid] at hcount
  obtain ⟨⟨record, rfl⟩, nCount', hread', hnat'⟩ := increaseCount_value hread hnat hcount
  rintro ⟨m, hm, nCount'', hread'', hnat''⟩
  have habsent : id ∉ s.live .scripts := by
    intro hmem
    have hhave : s.haveScript id = true := hmem
    rw [hid] at hhave
    cases hhave
  have hlive : ((s.setData (Counter.countKey .scripts) record).setData (scriptKey id) []).live .scripts
      = s.live .scripts := by
    refine (live_setData_nil (c := .scripts) (x := id)).trans ?_
    rw [live_setData_count]
    exact Set.sdiff_singleton_eq_self habsent
  have hkeep : ((s.setData (Counter.countKey .scripts) record).setData (scriptKey id) []).getCount
      scriptCountKey = (s.setData (Counter.countKey .scripts) record).getCount scriptCountKey :=
    getCount_setData_ne fun h => scriptKey_ne_countKey id h.symm
  have hmn : m = n := by
    rw [hlive, hn] at hm
    exact_mod_cast hm.symm
  have hsame : nCount' = nCount'' := Except.ok.inj ((hread'.symm.trans hkeep.symm).trans hread'')
  rw [← hsame, hnat', hmn] at hnat''
  omega

end

end CScriptDBViewCache

/-! ## Runs on a stack -/

namespace ScriptStack

open CScriptDBViewCache (Counter scriptKey scriptDataKey)

/-- `GetScriptDataCount` of a script is the number of its live data keys. -/
def DataCountExact (db : CScriptDB) (caches : List ScriptCache) (r : CRegID) : Prop :=
  ∃ n : ℕ, Set.encard {key | (data db caches (scriptDataKey r.getVec6 key)).isSome} = n ∧
    ∃ nCount caches', getScriptDataCount db caches r.getVec6 = .ok (nCount, caches') ∧
      (nCount.getD 0).toInt = n

/-- `GetScriptCount` is the number of live scripts. -/
def ScriptCountExact (db : CScriptDB) (caches : List ScriptCache) : Prop :=
  ∃ n : ℕ, Set.encard {id | (data db caches (scriptKey id)).isSome} = n ∧
    ∃ nCount caches', getScriptCount db caches = .ok (nCount, caches') ∧ (nCount.getD 0).toInt = n

structure CountsExact (db : CScriptDB) (caches : List ScriptCache) : Prop where
  items : ∀ r, DataCountExact db caches r
  scripts : ScriptCountExact db caches

/-- One call, on the caches and the logs recorded so far. -/
inductive CountStep (db : CScriptDB) :
    List ScriptCache × List CScriptDBOperLog → List ScriptCache × List CScriptDBOperLog → Prop
  | setScriptData {caches caches' logs log} (r : CRegID) (key value : Bytes) (nonempty : value ≠ [])
      (call : setScriptData db caches r.getVec6 key value = .ok (caches', log)) :
      CountStep db (caches, logs) (caches', logs ++ [log])
  | eraseScriptData {caches caches' logs log} (r : CRegID) (key : Bytes)
      (call : eraseScriptData db caches r.getVec6 key = .ok (caches', log)) :
      CountStep db (caches, logs) (caches', logs ++ [log])
  /-- any of the logs, at any time -/
  | undoScriptData {caches caches' logs log} (recorded : log ∈ logs)
      (call : undoScriptData db caches log = .ok caches') :
      CountStep db (caches, logs) (caches', logs)
  | setScript {caches caches' logs} (r : CRegID) (value : Bytes) (nonempty : value ≠ [])
      (call : setScript db caches r value = .ok caches') :
      CountStep db (caches, logs) (caches', logs)
  | eraseScript {caches caches' logs} (r : CRegID) (call : eraseScript db caches r = .ok caches') :
      CountStep db (caches, logs) (caches', logs)
  /-- a read, or a call that returns false: it has only read -/
  | reads {caches caches' logs} (cached : caches' ≠ []) (same : SameAnswers db caches caches') :
      CountStep db (caches, logs) (caches', logs)

section
variable {db : CScriptDB} {caches caches' : List ScriptCache} {s : CScriptDBViewCache}

theorem Shows.counted_iff (h : Shows db caches s) (c : Counter) : s.Counted c ↔
    ∃ n : ℕ, Set.encard {x | (data db caches (c.itemKey x)).isSome} = n ∧
      ∃ nCount caches', ScriptStack.getCount db caches c.countKey = .ok (nCount, caches') ∧
        (nCount.getD 0).toInt = n := by
  have hlive : s.live c = {x | (data db caches (c.itemKey x)).isSome} := by
    ext x
    show s.haveData (c.itemKey x) = true ↔ _
    unfold CScriptDBViewCache.haveData
    rw [h.answers]
    rfl
  unfold CScriptDBViewCache.Counted
  rw [hlive]
  refine exists_congr fun n => and_congr_right fun _ => ?_
  constructor
  · rintro ⟨nCount, hread, hvalue⟩
    obtain ⟨⟨nCount', caches'⟩, hread', rfl, -⟩ := (h.getCount c.countKey).ok_right hread
    exact ⟨_, caches', hread', hvalue⟩
  · rintro ⟨nCount, caches', hread, hvalue⟩
    obtain ⟨_, hread', rfl, -⟩ := (h.getCount c.countKey).ok_left hread
    exact ⟨_, hread', hvalue⟩

theorem Shows.countsExact_iff (h : Shows db caches s) : s.CountsExact ↔ CountsExact db caches := by
  constructor
  · intro hs
    exact ⟨fun r => (h.counted_iff (.items r)).mp (hs _), (h.counted_iff .scripts).mp (hs _)⟩
  · rintro ⟨hitems, hscripts⟩ c
    cases c with
    | scripts => exact (h.counted_iff .scripts).mpr hscripts
    | items r => exact (h.counted_iff (.items r)).mpr (hitems r)

/-- The logs a run has recorded are logs of data items. -/
def ItemLogs (logs : List CScriptDBOperLog) : Prop :=
  ∀ log ∈ logs, ∃ (r : CRegID) (key : Bytes), log.vchKey = scriptDataKey r.getVec6 key

theorem ItemLogs.append {logs : List CScriptDBOperLog} {log : CScriptDBOperLog} {r : CRegID}
    {key : Bytes} (h : ItemLogs logs) (hkey : log.vchKey = scriptDataKey r.getVec6 key) :
    ItemLogs (logs ++ [log]) := by
  intro log' hmem
  rcases List.mem_append.mp hmem with hold | hnew
  · exact h log' hold
  · obtain rfl := List.mem_singleton.mp hnew
    exact ⟨r, key, hkey⟩

/-- The caches show a view whose counters are exact. -/
def ShowsExact (db : CScriptDB) (caches : List ScriptCache) : Prop :=
  ∃ s, Shows db caches s ∧ s.CountsExact

theorem Shows.eraseScript (h : Shows db caches s) (hs : s.CountsExact) {r : CRegID}
    (he : eraseScript db caches r = .ok caches') : ShowsExact db caches' := by
  obtain ⟨caches₁, hcount, herase⟩ := Except.bind_eq_ok.mp he
  have hhave : haveScript db caches r = s.haveScript r.getVec6 := h.haveData _
  rw [hhave] at hcount
  obtain ⟨s₁, hcount', h₁⟩ := (h.scriptsIf _).ok_left hcount
  exact ⟨_, h₁.eraseKeyOrFail herase, hs.write (c := .scripts) (x := r.getVec6) hcount'⟩

theorem CountStep.exact {st st' : List ScriptCache × List CScriptDBOperLog} (hstep : CountStep db st st')
    (h : ShowsExact db st.1 ∧ ItemLogs st.2) : ShowsExact db st'.1 ∧ ItemLogs st'.2 := by
  obtain ⟨⟨s, hshows, hexact⟩, hlogs⟩ := h
  cases hstep with
  | setScriptData r key value nonempty call =>
    obtain ⟨⟨s', log⟩, hcall, hshows', rfl⟩ := (hshows.setScriptData _ _ _).ok_left call
    obtain ⟨hexact', hkey⟩ := hexact.setScriptData nonempty hcall
    exact ⟨⟨s', hshows', hexact'⟩, hlogs.append hkey⟩
  | eraseScriptData r key call =>
    obtain ⟨⟨s', log⟩, hcall, hshows', rfl⟩ := (hshows.eraseScriptData _ _).ok_left call
    obtain ⟨hexact', hkey⟩ := hexact.eraseScriptData hcall
    exact ⟨⟨s', hshows', hexact'⟩, hlogs.append hkey⟩
  | undoScriptData recorded call =>
    obtain ⟨s', hcall, hshows'⟩ := (hshows.undoScriptData _).ok_left call
    obtain ⟨r, key, hkey⟩ := hlogs _ recorded
    exact ⟨⟨s', hshows', hexact.undoScriptData hkey hcall⟩, hlogs⟩
  | setScript r value nonempty call =>
    obtain ⟨s', hcall, hshows'⟩ := (hshows.setScript r value).ok_left call
    exact ⟨⟨s', hshows', hexact.setScript nonempty hcall⟩, hlogs⟩
  | eraseScript r call => exact ⟨hshows.eraseScript hexact call, hlogs⟩
  | reads cached same =>
    exact ⟨⟨s, ⟨cached, fun key => by rw [hshows.answers, same key]⟩, hexact⟩, hlogs⟩

/-- From a stack whose counters are exact, every sequence of calls that write nonempty values leads
to stacks whose counters are exact. -/
theorem counts_stay_exact (db : CScriptDB) (c : ScriptCache) (base : List ScriptCache)
    (hstart : CountsExact db (c :: base)) (caches : List ScriptCache) (logs : List CScriptDBOperLog)
    (hrun : Relation.ReflTransGen (CountStep db) (c :: base, []) (caches, logs)) :
    CountsExact db caches := by
  have hshows : Shows db (c :: base) (view db (c :: base)) := Shows.view (List.cons_ne_nil c base)
  have hinv : ∀ st, Relation.ReflTransGen (CountStep db) (c :: base, []) st →
      ShowsExact db st.1 ∧ ItemLogs st.2 := by
    intro st hst
    induction hst with
    | refl => exact ⟨⟨_, hshows, hshows.countsExact_iff.mpr hstart⟩, fun log hmem => by cases hmem⟩
    | tail _ hstep ih => exact hstep.exact ih
  obtain ⟨⟨s, hs, hexact⟩, -⟩ := hinv _ hrun
  exact hs.countsExact_iff.mp hexact

end

/-! ## From nothing -/

theorem encard_empty_iff {S : Set Bytes} (h : ∀ x, x ∉ S) : S.encard = (0 : ℕ) := by
  rw [Set.eq_empty_of_forall_notMem h, Set.encard_empty]
  rfl

theorem empty_data (key : Bytes) : data (Sample.scriptsOf []) [∅] key = none := by
  rw [data_cons_of_none (AList.lookup_empty key)]
  exact Finmap.lookup_empty key

/-- Nothing is counted where nothing is stored. -/
theorem empty_countsExact : CountsExact (Sample.scriptsOf []) [∅] := by
  have hshows : Shows (Sample.scriptsOf []) [∅] (view (Sample.scriptsOf []) [∅]) :=
    Shows.view (List.cons_ne_nil _ _)
  rw [← hshows.countsExact_iff]
  intro c
  have hnone (key : Bytes) : (view (Sample.scriptsOf []) [∅]).getData key = none := by
    rw [getData_view, empty_data]
  refine ⟨0, encard_empty_iff fun x hx => ?_, none, ?_, rfl⟩
  · rw [CScriptDBViewCache.mem_live, CScriptDBViewCache.haveData, hnone] at hx
    cases hx
  · unfold CScriptDBViewCache.getCount
    rw [hnone]

/-- A key written over nothing, and the write undone. -/
theorem counts_stay_exact_undo : ∃ caches log caches',
    setScriptData (Sample.scriptsOf []) [∅] (CRegID.mk 1 0).getVec6 [7] [8] = .ok (caches, log) ∧
      undoScriptData (Sample.scriptsOf []) caches log = .ok caches' ∧
      CountsExact (Sample.scriptsOf []) caches ∧ CountsExact (Sample.scriptsOf []) caches' := by
  have hrun : (setScriptData (Sample.scriptsOf []) [∅] (CRegID.mk 1 0).getVec6 [7] [8] >>=
      fun p => undoScriptData (Sample.scriptsOf []) p.1 p.2).toOption.isSome = true := by decide +kernel
  cases hset : setScriptData (Sample.scriptsOf []) [∅] (CRegID.mk 1 0).getVec6 [7] [8] with
  | error e =>
    rw [hset] at hrun
    cases hrun
  | ok p =>
    obtain ⟨caches, log⟩ := p
    rw [hset, Except.ok_bind] at hrun
    cases hundo : undoScriptData (Sample.scriptsOf []) caches log with
    | error e =>
      dsimp only at hrun
      rw [hundo] at hrun
      cases hrun
    | ok caches' =>
      have hfirst : CountStep (Sample.scriptsOf []) ([∅], []) (caches, [log]) :=
        .setScriptData ⟨1, 0⟩ [7] [8] (by decide) hset
      have hsecond : CountStep (Sample.scriptsOf []) (caches, [log]) (caches', [log]) :=
        .undoScriptData List.mem_cons_self hundo
      exact ⟨caches, log, caches', rfl, hundo,
        counts_stay_exact _ _ _ empty_countsExact _ _ (.single hfirst),
        counts_stay_exact _ _ _ empty_countsExact _ _ (.tail (.single hfirst) hsecond)⟩

/-- A database with a count for a script that has no data. -/
def countOnlyDB : CScriptDB :=
  Sample.scriptsOf [(CScriptDBViewCache.scriptDataCountKey (CRegID.mk 1 0).getVec6, [1, 0, 0, 0])]

/-- An empty script is counted, and a stack can hold any count to begin with. -/
theorem counts_inexact :
    (∃ caches, setScript (Sample.scriptsOf []) [∅] ⟨1, 0⟩ [] = .ok caches ∧
        CountsExact (Sample.scriptsOf []) [∅] ∧ ¬ ScriptCountExact (Sample.scriptsOf []) caches) ∧
      ¬ DataCountExact countOnlyDB [∅] ⟨1, 0⟩ := by
  constructor
  · have hshows : Shows (Sample.scriptsOf []) [∅] (view (Sample.scriptsOf []) [∅]) :=
      Shows.view (List.cons_ne_nil _ _)
    have hrun : (setScript (Sample.scriptsOf []) [∅] ⟨1, 0⟩ []).toOption.isSome = true := by
      decide +kernel
    cases hset : setScript (Sample.scriptsOf []) [∅] ⟨1, 0⟩ [] with
    | error e =>
      rw [hset] at hrun
      cases hrun
    | ok caches =>
      refine ⟨caches, rfl, empty_countsExact, fun hexact => ?_⟩
      obtain ⟨s', hcall, hshows'⟩ := (hshows.setScript ⟨1, 0⟩ []).ok_left hset
      have hcounted := (hshows.counted_iff .scripts).mpr empty_countsExact.scripts
      have habsent : (view (Sample.scriptsOf []) [∅]).haveScript (CRegID.mk 1 0).getVec6 = false := by
        rw [CScriptDBViewCache.haveScript, CScriptDBViewCache.haveData, getData_view, empty_data]
        rfl
      exact hcounted.setScript_nil habsent hcall ((hshows'.counted_iff .scripts).mpr hexact)
  · rintro ⟨n, hn, nCount, caches', hread, hnat⟩
    have hcount : (getScriptDataCount countOnlyDB [∅] (CRegID.mk 1 0).getVec6).toOption.map Prod.fst
        = some (some 1) := by decide +kernel
    rw [hread] at hcount
    obtain rfl : nCount = some 1 := Option.some.inj hcount
    have hnone : Set.encard {key | (data countOnlyDB [∅]
        (scriptDataKey (CRegID.mk 1 0).getVec6 key)).isSome} = (0 : ℕ) := by
      refine encard_empty_iff fun key hkey => ?_
      have hdata : data countOnlyDB [∅] (scriptDataKey (CRegID.mk 1 0).getVec6 key) = none := by
        rw [data_cons_of_none (AList.lookup_empty _)]
        refine (CScriptDBViewCache.getData_setData_ne _ _ ?_).trans (Finmap.lookup_empty _)
        exact CScriptDBViewCache.scriptDataKey_ne_countKey _ _ _
      rw [Set.mem_ofPred_eq, hdata] at hkey
      cases hkey
    rw [hnone] at hn
    have hzero : n = 0 := by exact_mod_cast hn.symm
    rw [hzero] at hnat
    cases hnat

end ScriptStack

end Dacrs
