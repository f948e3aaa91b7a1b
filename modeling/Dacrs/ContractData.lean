import Dacrs.ContractSpec

/-!
# What a contract writes to the contract database

Every write of a contract run leaves a log that undoes it (`CVmRunEvn.run_logged`), provided
the item counters are in order, and the run keeps them in order.  `Logged` carries both along
the run, together with what the undo needs to ignore a record written under another prefix.
-/

open Codec (Bytes)

namespace Dacrs

namespace CScriptDBViewCache

/-! ## Counters stay in order -/

section
variable {s s' t u : CScriptDBViewCache} {key k : Bytes} {n : Int32}

theorem CanonicalCount.setData_ne (h : s.CanonicalCount k) (value : Bytes) (hne : k ≠ key) :
    (s.setData key value).CanonicalCount k := by
  obtain ⟨n, h0, hn⟩ := h
  exact ⟨n, h0, by rw [s.oldValue_setData_ne value hne, hn]⟩

theorem CanonicalCount.setData_self (h0 : 0 ≤ n) :
    (s.setData key (countRecord n)).CanonicalCount key :=
  ⟨n, h0, oldValue_setData_self s key _⟩

/-- 's' and 't', which the counter keys and the key of the related accounts start with. -/
def countInitial : UInt8 := 115
def relInitial : UInt8 := 116

theorem scriptDataCountKey_head (id : Bytes) :
    (scriptDataCountKey id).head? = some countInitial := rfl

theorem txRelAccountKey_head (h : Uint256) : (txRelAccountKey h).head? = some relInitial := rfl

/-- A record under another initial leaves the counters alone. -/
theorem CountsCanonical.setData (h : s.CountsCanonical) (value : Bytes)
    (hkey : key.head? ≠ some countInitial) : (s.setData key value).CountsCanonical where
  scripts := h.scripts.setData_ne value fun he => hkey (by rw [← he]; rfl)
  items id := (h.items id).setData_ne value fun he => hkey (by rw [← he]; rfl)

/-- So does writing a count. -/
theorem CountsCanonical.setCount (h : s.CountsCanonical) (h0 : 0 ≤ n) :
    (s.setData key (countRecord n)).CountsCanonical := by
  have hall : ∀ k, s.CanonicalCount k → (s.setData key (countRecord n)).CanonicalCount k := by
    intro k hk
    by_cases hkk : k = key
    · subst hkk
      exact .setData_self h0
    · exact hk.setData_ne _ hkk
  exact ⟨hall _ h.scripts, fun id => hall _ (h.items id)⟩

theorem CountsCanonical.increaseUnless (h : s.CountsCanonical) {p : Bool}
    (hs : s.increaseUnless p key = .ok s') : s'.CountsCanonical := by
  unfold CScriptDBViewCache.increaseUnless at hs
  split at hs
  · obtain rfl := Except.ok.inj hs
    exact h
  · obtain ⟨n, h1, rfl⟩ := increaseCount_record hs
    exact h.setCount h1

theorem CountsCanonical.decreaseIf (h : s.CountsCanonical) (hk : s.CanonicalCount key) {p : Bool}
    (hs : s.decreaseIf p key = .ok s') : s'.CountsCanonical := by
  obtain ⟨n, h0, hn⟩ := hk
  rcases decreaseIf_ok hn hs with ⟨-, rfl⟩ | ⟨-, hpos, rfl⟩
  · exact h
  · exact h.setCount (Int32_pred_nonneg hpos)

theorem CountsCanonical.setScript (h : s.CountsCanonical) {id value : Bytes}
    (hs : s.setScript id value = .ok s') : s'.CountsCanonical := by
  unfold CScriptDBViewCache.setScript at hs
  rw [Except.bind_eq_ok] at hs
  obtain ⟨s₁, h1, hs⟩ := hs
  obtain rfl := Except.ok.inj hs
  exact (h.increaseUnless h1).setData value (by simp [scriptKey, defPrefix, countInitial])

theorem scriptDataKey_head (id key : Bytes) : (scriptDataKey id key).head? = some 100 := rfl

theorem CountsCanonical.setScriptData (h : s.CountsCanonical) {id key value : Bytes}
    {log : CScriptDBOperLog} (hs : s.setScriptData id key value = .ok (s', log)) :
    s'.CountsCanonical ∧ log.vchKey = scriptDataKey id key := by
  unfold CScriptDBViewCache.setScriptData at hs
  rw [Except.bind_eq_ok] at hs
  obtain ⟨s₁, h1, hs⟩ := hs
  obtain ⟨rfl, rfl⟩ := Prod.mk.inj (Except.ok.inj hs)
  exact ⟨(h.increaseUnless h1).setData value (by simp [scriptDataKey_head, countInitial]), rfl⟩

theorem CountsCanonical.eraseScriptData (h : s.CountsCanonical) {id key : Bytes}
    {log : CScriptDBOperLog} (hs : s.eraseScriptData id key = .ok (s', log)) :
    s'.CountsCanonical ∧ log.vchKey = scriptDataKey id key := by
  unfold CScriptDBViewCache.eraseScriptData at hs
  rw [Except.bind_eq_ok] at hs
  obtain ⟨s₁, h1, hs⟩ := hs
  cases hd : s₁.getData (scriptDataKey id key) with
  | none =>
    rw [hd] at hs
    cases hs
  | some old =>
    rw [hd] at hs
    dsimp only at hs
    rw [Except.bind_eq_ok] at hs
    obtain ⟨s₂, h2, hs⟩ := hs
    obtain ⟨rfl, rfl⟩ := Prod.mk.inj (Except.ok.inj hs)
    unfold eraseKey at h2
    split at h2
    · obtain rfl := Except.ok.inj h2
      refine ⟨(h.decreaseIf (h.items id) h1).setData [] ?_, rfl⟩
      simp [scriptDataKey_head, countInitial]
    · cases h2

/-! ## Logged writes -/

/-- A run of logged writes from `s` to `t`. -/
structure Logged (s : CScriptDBViewCache) (logs : List CScriptDBOperLog)
    (t : CScriptDBViewCache) : Prop where
  trail : Undo.Trail undoScriptData s logs t
  counts : t.CountsCanonical
  keys : ∀ log ∈ logs, log.vchKey.head? ≠ some relInitial

theorem Logged.nil (h : s.CountsCanonical) : Logged s [] s := ⟨.nil, h, by simp⟩

variable {logs : List CScriptDBOperLog} {log : CScriptDBOperLog}

theorem Logged.snoc (h : Logged s logs t) (hundo : u.undoScriptData log = .ok t)
    (hu : u.CountsCanonical) (hkey : log.vchKey.head? ≠ some relInitial) :
    Logged s (logs ++ [log]) u where
  trail := h.trail.snoc log hundo
  counts := hu
  keys log' hmem := by
    rcases List.mem_append.mp hmem with hold | hnew
    · exact h.keys log' hold
    · rw [List.mem_singleton.mp hnew]
      exact hkey

theorem Logged.append {logs' : List CScriptDBOperLog} (h : Logged s logs t) (h' : Logged t logs' u) :
    Logged s (logs ++ logs') u where
  trail := h.trail.append h'.trail
  counts := h'.counts
  keys log' hmem := (List.mem_append.mp hmem).elim (h.keys log') (h'.keys log')

/-- A record of another kind. -/
theorem Logged.setDataLogged (h : Logged s logs t) {key value : Bytes}
    (hdata : key.take 4 ≠ dataPrefix) (hcount : key.head? ≠ some countInitial)
    (hrel : key.head? ≠ some relInitial) :
    Logged s (logs ++ [(t.setDataLogged key value).2]) (t.setDataLogged key value).1 :=
  h.snoc (t.undoScriptData_setDataLogged value hdata) (h.counts.setData value hcount) hrel

/-! ## Records the undo does not see -/

/-- A count under a key is read and written alike when another record is there. -/
theorem setCount_setData (s : CScriptDBViewCache) (value : Bytes) (n : Int32) (hne : k ≠ key) :
    (s.setData key value).setCount k n = (fun t => t.setData key value) <$> s.setCount k n := by
  unfold CScriptDBViewCache.setCount
  split
  · exact congrArg Except.ok (s.setData_comm value _ hne)
  · split
    · rfl
    · exact congrArg Except.ok (s.setData_comm value _ hne)

theorem getCount_setData (s : CScriptDBViewCache) (value : Bytes) (hne : k ≠ key) :
    (s.setData key value).getCount k = s.getCount k := by
  unfold getCount
  rw [s.getData_setData_ne value hne]

theorem undoCount_setData (s : CScriptDBViewCache) (value : Bytes) (hlog : log.vchKey ≠ key)
    (hcount : scriptDataCountKey ((log.vchKey.drop 4).take 6) ≠ key) :
    (s.setData key value).undoCount log = (fun t => t.setData key value) <$> s.undoCount log := by
  have hinc : ∀ k, k ≠ key → (s.setData key value).increaseCount k
      = (fun t => t.setData key value) <$> s.increaseCount k := by
    intro k hk
    unfold increaseCount
    rw [getCount_setData s value hk]
    cases s.getCount k with
    | error e => rfl
    | ok o => exact setCount_setData s value _ hk
  have hdec : ∀ k, k ≠ key → (s.setData key value).decreaseCount k
      = (fun t => t.setData key value) <$> s.decreaseCount k := by
    intro k hk
    unfold decreaseCount
    rw [getCount_setData s value hk]
    cases s.getCount k with
    | error e => rfl
    | ok o =>
      cases o with
      | none => rfl
      | some n => exact setCount_setData s value _ hk
  unfold undoCount
  dsimp only
  rw [s.oldValue_setData_ne value hlog]
  split
  · split
    · exact hdec _ hcount
    · rfl
  · split
    · exact hinc _ hcount
    · rfl

/-- An undo of a log goes through in the presence of a record it does not concern. -/
theorem undoScriptData_setData (value : Bytes) (hkey : key.head? = some relInitial)
    (hlog : log.vchKey.head? ≠ some relInitial) (h : t.undoScriptData log = .ok s) :
    (t.setData key value).undoScriptData log = .ok (s.setData key value) := by
  have hne : log.vchKey ≠ key := fun he => hlog (by rw [he, hkey])
  have hcount : scriptDataCountKey ((log.vchKey.drop 4).take 6) ≠ key := by
    intro he
    rw [← he, scriptDataCountKey_head] at hkey
    simp [countInitial, relInitial] at hkey
  unfold undoScriptData at h ⊢
  split at h
  · next hpre =>
    rw [if_pos hpre]
    split at h
    · cases h
    · next hlen =>
      rw [if_neg hlen, undoCount_setData t value hne hcount]
      rw [Except.bind_eq_ok] at h
      obtain ⟨t₁, h1, h⟩ := h
      obtain rfl := Except.ok.inj h
      rw [h1]
      exact congrArg Except.ok (t₁.setData_comm value _ hne)
  · next hpre =>
    rw [if_neg hpre]
    obtain rfl := Except.ok.inj h
    exact congrArg Except.ok (t.setData_comm value _ hne)

end

end CScriptDBViewCache

/-! ## The run -/

namespace CVmRunEvn

open CScriptDBViewCache (Logged)

variable {s s' : CScriptDBViewCache}

/-- One call on the contract database. -/
theorem dbStep_logged {id : Bytes} (hid : id.length = 6) {logs : List CScriptDBOperLog}
    {t : CScriptDBViewCache} {st' : CScriptDBViewCache × List CScriptDBOperLog} {op : VmDbOp}
    (hl : Logged s logs t) (h : dbStep id (t, logs) op = .ok st') : Logged s st'.2 st'.1 := by
  unfold dbStep at h
  dsimp only at h
  split at h
  · next u log hop =>
    obtain rfl := Except.ok.inj h
    cases op with
    | set key value hval =>
      dsimp only at hop
      obtain ⟨hc, hkey⟩ := hl.counts.setScriptData hop
      refine hl.snoc ?_ hc ?_
      · exact CScriptDBViewCache.undoScriptData_setScriptData hid hval (hl.counts.items id) hop
      · rw [hkey, CScriptDBViewCache.scriptDataKey_head]
        simp [CScriptDBViewCache.relInitial]
    | erase key =>
      dsimp only at hop
      obtain ⟨hc, hkey⟩ := hl.counts.eraseScriptData hop
      refine hl.snoc ?_ hc ?_
      · exact CScriptDBViewCache.undoScriptData_eraseScriptData hid (hl.counts.items id) hop
      · rw [hkey, CScriptDBViewCache.scriptDataKey_head]
        simp [CScriptDBViewCache.relInitial]
  · obtain rfl := Except.ok.inj h
    exact hl
  · cases h

theorem runDb_logged {id : Bytes} (hid : id.length = 6) {logs : List CScriptDBOperLog}
    {ops : List VmDbOp} (hs : s.CountsCanonical) (h : runDb id s ops = .ok (s', logs)) :
    Logged s logs s' :=
  Except.foldlM_invariant (fun st => Logged s st.2 st.1) (dbStep id) ops
    (fun _ _ _ _ hl hstep => dbStep_logged hid hl hstep) (Logged.nil hs) h

/-- The app accounts a contract changes are stored one by one. -/
theorem opeatorAppAccount_logged {chainActive : PBlockIndex} {des : CRegID} {nHeight : ℤ}
    {mapOp : List (Bytes × List CAppFundOperate)} {w : AppWork} (hs : s.CountsCanonical)
    (h : opeatorAppAccount chainActive des nHeight s mapOp = .ok w) : Logged s w.dblog w.scriptDB := by
  refine Except.foldlM_invariant (fun w : AppWork => Logged s w.dblog w.scriptDB)
    (opeatorAppAccountOne chainActive des nHeight) mapOp ?_ (Logged.nil hs) h
  intro w item w' _ hl hstep
  unfold opeatorAppAccountOne at hstep
  rw [Except.bind_eq_ok] at hstep
  obtain ⟨a, -, hstep⟩ := hstep
  rw [Except.bind_eq_ok] at hstep
  obtain ⟨b, -, hstep⟩ := hstep
  dsimp only at hstep
  rw [Except.bind_eq_ok] at hstep
  obtain ⟨c, -, hstep⟩ := hstep
  obtain rfl := Except.ok.inj hstep
  refine hl.setDataLogged ?_ ?_ ?_
  all_goals simp [CScriptDBViewCache.scriptAccKey, CScriptDBViewCache.acctPrefix,
    CScriptDBViewCache.dataPrefix, CScriptDBViewCache.countInitial, CScriptDBViewCache.relInitial]

theorem writeOutPut_logged {cfg : SysCfg} {h : Uint256} {ops : List CVmOperate} {w : AppWork}
    (hl : Logged s w.dblog w.scriptDB) :
    Logged s (writeOutPut cfg h ops w).2 (writeOutPut cfg h ops w).1 := by
  unfold writeOutPut
  split
  · refine hl.setDataLogged ?_ ?_ ?_
    all_goals simp [CScriptDBViewCache.txOutPutKey, CScriptDBViewCache.outputPrefix,
      CScriptDBViewCache.dataPrefix, CScriptDBViewCache.countInitial, CScriptDBViewCache.relInitial]
  · exact hl

/-- What the interpreter is started on. -/
def vmInput (node : Node) (tx : CTransaction) (view : CAccountViewCache) (s : CScriptDBViewCache)
    (nHeight : ℤ) (ullBurnFactor : UInt64) (script : CVmScript) (type : ScriptType) : VmInput where
  type := type
  script := script
  maxStep := maxStep tx.ullFees ullBurnFactor
  tx := tx
  view := view
  scriptDB := s
  nHeight := nHeight
  chainActive := node.chainActive
  disk := node.disk

/-- `m_bIsCheckAccount` after the interpreter has run. -/
def checksAccount (type : ScriptType) (script : CVmScript) (r : VmResult) : Bool :=
  match type with
  | .mcs8051 => script.isCheckAccount .mcs8051
  | .lua => r.bCheckAccount

/-- Everything a successful run can have done. -/
theorem run_cases {node : Node} {tx : CTransaction} {des : CRegID} {view : CAccountViewCache}
    {nHeight : ℤ} {ullBurnFactor : UInt64} {out : Outcome}
    (h : run node tx des view s nHeight ullBurnFactor = .ok out) :
    ∃ (r : VmResult) (s₁ : CScriptDBViewCache) (dblog : List CScriptDBOperLog) (app : AppWork)
      (mapOp : List (Bytes × List CAppFundOperate)),
      runDb des.getVec6 s r.dbOps = .ok (s₁, dblog) ∧
      checkOperate node.cfg node.cr view s₁ des r.output = true ∧
      opeatorAccount node.cfg node.cr view nHeight r.output = some out.accounts ∧
      opeatorAppAccount node.chainActive des nHeight s₁ mapOp = .ok app ∧
      out.scriptDB = (writeOutPut node.cfg ((CBaseTransaction.transaction tx).getHash node.cr.Hash)
        r.output app).1 ∧
      out.dblog = dblog ++ (writeOutPut node.cfg
        ((CBaseTransaction.transaction tx).getHash node.cr.Hash) r.output app).2 ∧
      out.ullRunStep = r.llStep.toUInt64 ∧ r.llStep ≠ 0 ∧ r.llStep ≠ -1 ∧
      mapOp = mapAppOperate r.appOperate ∧ ∃ script type, intial s des tx = .ok (script, type) ∧
        interpret node (vmInput node tx view s nHeight ullBurnFactor script type) = .ok r ∧
        (checksAccount type script r = false ∨
          checkAppAcctOperate node.cfg node.cr view des tx.ullValues mapOp r.output = true) := by
  unfold run at h
  rw [Except.bind_eq_ok] at h
  obtain ⟨-, -, h⟩ := h
  rw [Except.bind_eq_ok] at h
  obtain ⟨-, -, h⟩ := h
  rw [Except.bind_eq_ok] at h
  obtain ⟨⟨script, type⟩, hinit, h⟩ := h
  dsimp only at h
  rw [Except.bind_eq_ok] at h
  obtain ⟨r, hvm, h⟩ := h
  rw [Except.bind_eq_ok] at h
  obtain ⟨_, hstep, h⟩ := h
  rw [Except.bind_eq_ok] at h
  obtain ⟨⟨s₁, dblog⟩, hdb, h⟩ := h
  dsimp only at h
  rw [Except.bind_eq_ok] at h
  obtain ⟨_, hcheck, h⟩ := h
  rw [Except.bind_eq_ok] at h
  obtain ⟨accounts, hacc, h⟩ := h
  rw [Except.bind_eq_ok] at h
  obtain ⟨_, happck, h⟩ := h
  rw [Except.bind_eq_ok] at h
  obtain ⟨app, happ, h⟩ := h
  rw [Except.bind_eq_ok] at h
  obtain ⟨-, -, h⟩ := h
  obtain rfl := Except.ok.inj h
  rw [Exec.require_eq_ok Exec.fails_returnFalse] at hstep hcheck happck
  rw [Exec.ofOption_eq_ok Exec.fails_returnFalse] at hacc
  exact ⟨r, s₁, dblog, app, _, hdb, hcheck, hacc, happ, rfl, rfl, rfl, hstep.1, hstep.2, rfl, script,
    type, hinit, hvm, happck⟩

/-- All database logs of a run undo it. -/
theorem run_logged {node : Node} {tx : CTransaction} {des : CRegID} {view : CAccountViewCache}
    {nHeight : ℤ} {ullBurnFactor : UInt64} {out : Outcome} (hs : s.CountsCanonical)
    (h : run node tx des view s nHeight ullBurnFactor = .ok out) :
    Logged s out.dblog out.scriptDB := by
  obtain ⟨r, s₁, dblog, app, mapOp, hdb, -, -, happ, hout, hlog, -⟩ := run_cases h
  have h1 := runDb_logged des.length_getVec6 hs hdb
  rw [hout, hlog]
  exact h1.append (writeOutPut_logged (opeatorAppAccount_logged h1.counts happ))

end CVmRunEvn

/-! ## Every execution keeps the counters in order -/

theorem writeAddressIndex_counts {node : Node} (vs : Views) {ids : List CUserID}
    {nHeight nIndex : ℤ} {hash : Uint256} {s : CScriptDBViewCache} {logs : List CScriptDBOperLog}
    (hs : vs.scriptDB.CountsCanonical)
    (h : writeAddressIndex node vs ids nHeight nIndex hash = .ok (s, logs)) : s.CountsCanonical := by
  have hfold : ∀ (keys : List CKeyID) (st : CScriptDBViewCache × List CScriptDBOperLog),
      st.1.CountsCanonical → (keys.foldl (indexAddress nHeight nIndex hash) st).1.CountsCanonical := by
    intro keys
    induction keys with
    | nil => exact fun st hst => hst
    | cons k keys ih =>
      refine fun st hst => ih _ (hst.setData _ ?_)
      simp [CScriptDBViewCache.addrPrefix, CScriptDBViewCache.countInitial]
  unfold writeAddressIndex at h
  split at h
  · rw [Except.bind_eq_ok] at h
    obtain ⟨keys, -, h⟩ := h
    have hfst := congrArg Prod.fst (Except.ok.inj h)
    dsimp only at hfst
    rw [← hfst]
    exact hfold keys _ hs
  · obtain ⟨rfl, -⟩ := Prod.mk.inj (Except.ok.inj h)
    exact hs

theorem CBaseTransaction.executeTx_counts {node : Node} {tx : CBaseTransaction}
    {nIndex nHeight : ℤ} {nFuelRate : Int32} {vs : Views} {out : Executed}
    (hs : vs.scriptDB.CountsCanonical)
    (h : tx.executeTx node nIndex nHeight nFuelRate vs = .ok out) :
    out.views.scriptDB.CountsCanonical := by
  cases tx with
  | reward tx =>
    obtain ⟨r, a, b, -, -, -, -, -, hidx⟩ := CRewardTransaction.executeTx_cases h
    unfold CRewardTransaction.indexReward at hidx
    split at hidx
    · exact writeAddressIndex_counts ⟨out.views.view, vs.scriptDB⟩ hs hidx
    · have hfst := congrArg Prod.fst (Except.ok.inj hidx)
      dsimp only at hfst
      rw [← hfst]
      exact hs
  | registerAccount tx =>
    obtain ⟨pk, a, b, -, -, -, -, haddr, -⟩ := CRegisterAccountTx.executeTx_cases h
    exact writeAddressIndex_counts ⟨out.views.view, vs.scriptDB⟩ hs haddr
  | transaction tx =>
    obtain ⟨view, logs, vs', clogs, dblog, alogs, -, htype, -, -, haddr, -⟩ :=
      CTransaction.executeTx_cases h
    refine writeAddressIndex_counts vs' ?_ haddr
    unfold CTransaction.executeByType at htype
    split at htype
    · obtain ⟨des, cout, view', rel, -, hrun, -, -, rfl, -⟩ :=
        CTransaction.executeContract_cases htype
      refine (CVmRunEvn.run_logged hs hrun).counts.setData rel ?_
      rw [CScriptDBViewCache.txRelAccountKey_head]
      simp [CScriptDBViewCache.relInitial, CScriptDBViewCache.countInitial]
    · obtain rfl := congrArg Prod.fst (Except.ok.inj htype)
      exact hs
  | registerApp tx =>
    obtain ⟨a, b, logs, s, -, -, -, hset, -, -, -, haddr⟩ := CRegisterAppTx.executeTx_cases h
    exact writeAddressIndex_counts ⟨out.views.view, s⟩ (hs.setScript hset) haddr

end Dacrs
