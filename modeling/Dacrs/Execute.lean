import Dacrs.Vm

/-!
# Executing and undoing transactions

`ExecuteTx` and `UndoExecuteTx` of the four transaction classes.  An execution gives the
new views, the undo record and the run step; an undo gives the views back.  A failed
execution gives only its `Exit`: every caller throws the views away then.
-/

open Codec (Bytes)

namespace Dacrs

structure CTxUndo where
  cTxHash : Uint256
  vcAccountLog : List CAccountLog
  vcScriptOperLog : List CScriptDBOperLog
deriving DecidableEq, Inhabited

/-- The account view and the contract database view of one validation. -/
@[ext] structure Views where
  view : CAccountViewCache
  scriptDB : CScriptDBViewCache

/-- What a successful `ExecuteTx` leaves behind. -/
structure Executed where
  views : Views
  undo : CTxUndo
  ullRunStep : UInt64

/-- `g_sLimiteAppHeight`, `g_sLimite8051AppHeight`. -/
def limiteAppHeight : ℤ := 189000
def limite8051AppHeight : ℤ := 160000

/-- `listBlockAppId`. -/
def listBlockAppId : List CRegID := [⟨97560, 1⟩, ⟨96298, 1⟩, ⟨96189, 1⟩, ⟨95130, 1⟩, ⟨93694, 1⟩]

/-- The only key id that may still register contracts above `g_sLimiteAppHeight`. -/
def appRegistrant : CKeyID := 0xbf12b3bd0092b52014d073defc142d6775b52c75

/-- `CRegID(nHeight, nIndex)`. -/
def CRegID.ofPosition (nHeight nIndex : ℤ) : CRegID := ⟨UInt32.ofInt nHeight, UInt16.ofInt nIndex⟩

/-- `boost::get<CRegID>` throws on any other alternative. -/
def Exec.withRegID {α : Type} (id : CUserID) (f : CRegID → Exec α) : Exec α :=
  match id with
  | .regID r => f r
  | _ => Exec.throw "boost::bad_get"

/-- `DoS(100, …, UPDATE_ACCOUNT_FAIL, reason)`, the rejection of every `ExecuteTx`. -/
def Exec.updateFail {α : Type} (reason : String) : Exec α := Exec.doS 100 updateAccountFail reason

/-- The same as a caller's own call after a callee returned false. -/
def updateFailCall (reason : String) : StateCall := .doS 100 updateAccountFail reason false

/-! ## The address index -/

/-- `GetHex`: the digits from the most significant byte on. -/
def getHex (h : Uint256) : Bytes :=
  let digit (n : Nat) : UInt8 := UInt8.ofNat (if n < 10 then 48 + n else 87 + n)
  (uint256Codec.write h).reverse.flatMap fun b => [digit (b.toNat / 16), digit (b.toNat % 16)]

/-- One `SetTxHashByAddress`, its log kept. -/
def indexAddress (nHeight nIndex : ℤ) (hash : Uint256)
    (st : CScriptDBViewCache × List CScriptDBOperLog) (k : CKeyID) :
    CScriptDBViewCache × List CScriptDBOperLog :=
  let (s, log) := st.1.setTxHashByAddress k nHeight (nIndex + 1) (getHex hash)
  (s, st.2 ++ [log])

/-- The entries a transaction makes for the accounts it names, when the index is on. -/
def writeAddressIndex (node : Node) (vs : Views) (ids : List CUserID) (nHeight nIndex : ℤ)
    (hash : Uint256) : Exec (CScriptDBViewCache × List CScriptDBOperLog) :=
  if node.cfg.bAddressToTx then do
    let keys ← ids.mapM fun id => Exec.ofOption (vs.view.getKeyId node.cr id) Exec.returnFalse
    return keys.foldl (indexAddress nHeight nIndex hash) (vs.scriptDB, [])
  else .ok (vs.scriptDB, [])

/-! ## Fuel rate -/

/-- `GetFuelRate`: the rate set on the transaction; without one, that of the block it was mined
in, or of the next block of the active chain.  An unreadable block gives 0. -/
def getFuelRate (node : Node) (s : CScriptDBViewCache) (hash : Uint256) (nFuelRate : Int32) : Int32 :=
  if nFuelRate = 0 then
    match s.getData (CScriptDBViewCache.txIndexKey hash) with
    | some pos => ((node.disk.readHeader pos).map CBlockHeader.nFuelRate).getD 0
    | none => getElementForBurn node.cfg node.chainActive
  else nFuelRate

/-! ## Undoing logs -/

/-- One account log of the generic `UndoExecuteTx`.  Only a common transaction erases: an
account that is left empty and unregistered. -/
def undoAccountLog (cr : Crypto) (type : EmTxType) (v : CAccountViewCache) (log : CAccountLog) :
    Exec CAccountViewCache :=
  match v.accounts.lookup log.cKeyID with
  | none => Exec.updateFail "bad-read-accountdb"
  | some a =>
    let a := a.undoOperateAccount log
    if type = .common ∧ a.isEmptyValue ∧
        (¬ a.cPublicKey.isFullyValid cr ∨ a.cPublicKey.getKeyID cr ≠ a.cKeyID) then
      .ok (v.eraseAccountKey log.cKeyID)
    else .ok (v.setAccountKey log.cKeyID a)

/-- One script log. -/
def undoScriptLog (reason : String) (s : CScriptDBViewCache) (log : CScriptDBOperLog) :
    Exec CScriptDBViewCache :=
  (s.undoScriptData log).onFalse (updateFailCall reason)

/-- `CBaseTransaction::UndoExecuteTx`. -/
def undoExecuteBase (cr : Crypto) (type : EmTxType) (hash : Uint256) (vs : Views) (undo : CTxUndo) :
    Exec Views := do
  let view ← undo.vcAccountLog.reverse.foldlM (undoAccountLog cr type) vs.view
  let s ← undo.vcScriptOperLog.reverse.foldlM (undoScriptLog "bad-save-scriptdb") vs.scriptDB
  return ⟨view, if type = .contract then s.eraseTxRelAccout hash else s⟩

/-! ## CRegisterAccountTx -/

namespace CRegisterAccountTx

def payFee (node : Node) (tx : CRegisterAccountTx) (nHeight : ℤ) (a : CAccount) : Exec CAccount :=
  if 0 < tx.llFees then
    Exec.ofOption (a.operateAccount node.cfg .minusFree tx.llFees.toUInt64 nHeight)
      (Exec.updateFail "not-sufficiect-funds")
  else .ok a

def setMinerKey (node : Node) (tx : CRegisterAccountTx) (a : CAccount) : Exec CAccount :=
  match tx.cMinerId with
  | .pubKey m =>
    if m.isValid ∧ ¬ m.isFullyValid node.cr then Exec.updateFail "MinerPKey Is Invalid"
    else .ok { a with cMinerPKey := m }
  | _ => .ok a

/-- The account after the registration. -/
def registerAccount (node : Node) (tx : CRegisterAccountTx) (pk : CPubKey) (cRegId : CRegID)
    (nHeight : ℤ) (cAccount : CAccount) : Exec CAccount := do
  let a ← tx.payFee node nHeight { cAccount with cPublicKey := pk }
  tx.setMinerKey node { a with cRegID := cRegId }

/-- `CRegisterAccountTx::ExecuteTx`. -/
def executeTx (node : Node) (tx : CRegisterAccountTx) (nIndex nHeight : ℤ) (vs : Views) :
    Exec Executed :=
  match tx.cUserId with
  | .pubKey pk => do
    let cRegId := CRegID.ofPosition nHeight nIndex
    let cKeyId := pk.getKeyID node.cr
    let cAccount ← Exec.ofOption (vs.view.getAccount node.cr tx.cUserId)
      (Exec.updateFail "bad-read-accountdb")
    Exec.require (¬ (cAccount.cPublicKey.isFullyValid node.cr ∧
      cAccount.cPublicKey.getKeyID node.cr = cKeyId)) (Exec.updateFail "duplicate-register-account")
    let a ← tx.registerAccount node pk cRegId nHeight cAccount
    let hash := (CBaseTransaction.registerAccount tx).getHash node.cr.Hash
    let view := vs.view.saveAccountInfo cRegId cKeyId a
    let (s, logs) ← writeAddressIndex node ⟨view, vs.scriptDB⟩ [tx.cUserId] nHeight nIndex hash
    return ⟨⟨view, s⟩, ⟨hash, [CAccountLog.ofAccount cAccount], logs⟩, 0⟩
  | _ => Exec.throw "boost::bad_get"

/-- The account after the balance is put back. -/
def undoFee (tx : CRegisterAccountTx) (cKeyId : CKeyID) (undo : CTxUndo) (a : CAccount) :
    Exec CAccount :=
  if 0 < tx.llFees then
    match undo.vcAccountLog.find? (·.cKeyID == cKeyId) with
    | none => Exec.updateFail "bad-read-txundoinfo"
    | some log => .ok (a.undoOperateAccount log)
  else .ok a

/-- `CRegisterAccountTx::UndoExecuteTx`; the script logs are not looked at. -/
def undoExecuteTx (node : Node) (tx : CRegisterAccountTx) (nIndex nHeight : ℤ) (vs : Views)
    (undo : CTxUndo) : Exec Views := do
  let cAccountId := CRegID.ofPosition nHeight nIndex
  let cOldAccount ← Exec.ofOption (vs.view.getAccountReg cAccountId)
    (Exec.updateFail "bad-read-accountdb")
  let cKeyId := (vs.view.getKeyId node.cr (.regID cAccountId)).getD 0
  let cOldAccount ← tx.undoFee cKeyId undo cOldAccount
  let view :=
    if ¬ cOldAccount.isEmptyValue then
      vs.view.setAccountKey cKeyId
        { cOldAccount with cPublicKey := CPubKey.invalid, cMinerPKey := CPubKey.invalid }
    else (vs.view.eraseAccount node.cr tx.cUserId).getD vs.view
  return ⟨view.eraseKeyId cAccountId, vs.scriptDB⟩

end CRegisterAccountTx

/-! ## CTransaction -/

namespace CTransaction

/-- The destination account and its log: as stored, or a fresh one for a transfer to a key id
that has no account. -/
def desAccount (node : Node) (tx : CTransaction) (view : CAccountViewCache) :
    Exec (CAccount × CAccountLog) :=
  match view.getAccount node.cr tx.cDesUserId with
  | some d => .ok (d, CAccountLog.ofAccount d)
  | none => match tx.chTxType, tx.cDesUserId with
    | .common, .keyID k => .ok (CAccount.fresh k, CAccountLog.ofKeyID k)
    | _, id => Exec.withRegID id fun _ => Exec.updateFail "bad-read-accountdb"

/-- The transfer: source and destination account, and their logs. -/
def transfer (node : Node) (tx : CTransaction) (nHeight : ℤ) (view : CAccountViewCache) :
    Exec (CAccountViewCache × List CAccountLog) := do
  let ullMinusValue := tx.ullFees + tx.ullValues
  let cSrcAcct ← Exec.ofOption (view.getAccount node.cr tx.cSrcRegId)
    (Exec.withRegID tx.cSrcRegId fun _ => Exec.updateFail "bad-read-accountdb")
  let src ← Exec.ofOption (cSrcAcct.operateAccount node.cfg .minusFree ullMinusValue nHeight)
    (Exec.updateFail "operate-minus-account-failed")
  let view := view.setAccountKey src.cKeyID src
  let (cDesAcct, cDesAcctLog) ← tx.desAccount node view
  let des ← Exec.ofOption (cDesAcct.operateAccount node.cfg .addFree tx.ullValues nHeight)
    (Exec.updateFail "operate-add-account-failed")
  let view ← Exec.ofOption (view.setAccount node.cr tx.cDesUserId des)
    (Exec.updateFail "bad-save-account")
  return (view, [CAccountLog.ofAccount cSrcAcct, cDesAcctLog])

/-- The stored account a contract's account replaces. -/
def oldContractAccount (view : CAccountViewCache) (k : CKeyID) : Exec CAccount :=
  match view.accounts.lookup k with
  | some a => .ok a
  | none => if k = 0 then Exec.updateFail "bad-read-accountdb" else .ok (CAccount.fresh k)

/-- One account a contract touched is saved, the old one logged. -/
def saveContractAccount (w : CVmRunEvn.AccountWork) (st : CAccountViewCache × List CAccountLog)
    (k : CKeyID) : Exec (CAccountViewCache × List CAccountLog) := do
  let cOldAcct ← oldContractAccount st.1 k
  -- every pointer of `m_NewAccont` points to an object of `m_RawAccont`
  let itemAccount := (w.rawAccont.lookup k).getD CAccount.null
  return (st.1.setAccountKey k itemAccount, st.2 ++ [CAccountLog.ofAccount cOldAcct])

/-- `GetKeyId` on an app user id. -/
def appUserKeyId (node : Node) (view : CAccountViewCache) (id : Bytes) : Option CKeyID :=
  let key : CKeyID := match CRegID.ofVec6 id with
    | some r => (view.getKeyId node.cr (.regID r)).getD 0
    | none => if id.length = 34 then CKeyID.ofAddress node.cfg node.cr id else 0
  if key = 0 then none else some key

/-- A serialized `set<CKeyID>`, in the byte order of the keys. -/
def relAccountBytes (keys : List CKeyID) : Bytes :=
  let l := keys.dedup.insertionSort fun a b => uint160Codec.write a ≤ uint160Codec.write b
  Codec.writeCompactSize l.length ++ l.flatMap uint160Codec.write

/-- The contract part of `ExecuteTx`. -/
def executeContract (node : Node) (tx : CTransaction) (nHeight : ℤ) (nFuelRate : Int32)
    (vs : Views) : Exec (Views × List CAccountLog × List CScriptDBOperLog × UInt64) :=
  Exec.withRegID tx.cDesUserId fun des => do
    Exec.require (¬ (limiteAppHeight < nHeight ∧ des ∈ listBlockAppId))
      (Exec.updateFail "bad-read-account")
    let _ ← Exec.ofOption (vs.scriptDB.getScript des.getVec6) (Exec.updateFail "bad-read-account")
    let hash := (CBaseTransaction.transaction tx).getHash node.cr.Hash
    let ullEl := int32ToUInt64 (getFuelRate node vs.scriptDB hash nFuelRate)
    let out ← (CVmRunEvn.run node tx des vs.view vs.scriptDB nHeight ullEl).onFalse
      (updateFailCall "run-script-error")
    let (view, logs) ← out.accounts.newAccont.foldlM (saveContractAccount out.accounts) (vs.view, [])
    let users := out.rawAppUserAccout.filterMap fun a => appUserKeyId node view a.vuchAccUserID
    let s := out.scriptDB.setTxRelAccout hash (relAccountBytes (out.accounts.newAccont ++ users))
    return (⟨view, s⟩, logs, out.dblog, out.ullRunStep)

/-- Nothing more happens for a plain transfer. -/
def executeByType (node : Node) (tx : CTransaction) (nHeight : ℤ) (nFuelRate : Int32)
    (vs : Views) : Exec (Views × List CAccountLog × List CScriptDBOperLog × UInt64) :=
  match tx.chTxType with
  | .contract => tx.executeContract node nHeight nFuelRate vs
  | .common => .ok (vs, [], [], 0)

/-- `CTransaction::ExecuteTx`. -/
def executeTx (node : Node) (tx : CTransaction) (nIndex nHeight : ℤ) (nFuelRate : Int32)
    (vs : Views) : Exec Executed := do
  let (view, accountLogs) ← tx.transfer node nHeight vs.view
  let (vs, contractLogs, dblog, ullRunStep) ←
    tx.executeByType node nHeight nFuelRate ⟨view, vs.scriptDB⟩
  let hash := (CBaseTransaction.transaction tx).getHash node.cr.Hash
  let (s, logs) ← writeAddressIndex node vs [tx.cSrcRegId, tx.cDesUserId] nHeight nIndex hash
  return ⟨⟨vs.view, s⟩, ⟨hash, accountLogs ++ contractLogs, dblog ++ logs⟩, ullRunStep⟩

end CTransaction

/-! ## CRewardTransaction -/

namespace CRewardTransaction

/-- Index 0 clears the miner's coin days, index -1 pays the matured reward. -/
def operateReward (node : Node) (tx : CRewardTransaction) (nIndex nHeight : ℤ) (a : CAccount) :
    Exec CAccount :=
  if nIndex = 0 then .ok (a.clearAccPos node.cfg nHeight)
  else if nIndex = -1 then .ok { a with ullValues := a.ullValues + tx.ullRewardValue }
  else Exec.returnFalse

/-- Only the current block's reward goes into the address index. -/
def indexReward (node : Node) (tx : CRewardTransaction) (nIndex nHeight : ℤ) (vs : Views)
    (hash : Uint256) : Exec (CScriptDBViewCache × List CScriptDBOperLog) :=
  if nIndex = 0 then writeAddressIndex node vs [tx.cAccount] nHeight nIndex hash
  else .ok (vs.scriptDB, [])

/-- `CRewardTransaction::ExecuteTx`. -/
def executeTx (node : Node) (tx : CRewardTransaction) (nIndex nHeight : ℤ) (vs : Views) :
    Exec Executed :=
  match tx.cAccount with
  | .regID r => do
    let cAcctInfo ← Exec.ofOption (vs.view.getAccountReg r) (Exec.updateFail "bad-read-accountdb")
    let a ← tx.operateReward node nIndex nHeight cAcctInfo
    let view := vs.view.setAccountKey a.cKeyID a
    let hash := (CBaseTransaction.reward tx).getHash node.cr.Hash
    let (s, logs) ← tx.indexReward node nIndex nHeight ⟨view, vs.scriptDB⟩ hash
    return ⟨⟨view, s⟩, ⟨hash, [CAccountLog.ofAccount cAcctInfo], logs⟩, 0⟩
  | _ => Exec.updateFail "bad-account"

end CRewardTransaction

/-! ## CRegisterAppTx -/

namespace CRegisterAppTx

/-- The checks on the contract's code. -/
def checkScript (node : Node) (tx : CRegisterAppTx) (nHeight : ℤ) : Exec Unit :=
  match CVmScript.unserialize tx.vchScript with
  | none => Exec.updateFail "unserialize-script-error"
  | some (vmScript, _) => match vmScript.isValid with
    | none => Exec.updateFail "script-check-failed"
    | some .mcs8051 =>
      Exec.require (¬ limite8051AppHeight ≤ nHeight) (Exec.updateFail "script-check-failed")
    | some .lua =>
      Exec.require (node.luaSyntaxcheck vmScript.vuchRom) (Exec.updateFail "script-check-failed")

/-- The contract's key id. -/
def contractKeyId (cr : Crypto) (cRegId : CRegID) : CKeyID := cr.Hash160 cRegId.getVec6

/-- The contract's account. -/
def contractAccount (cr : Crypto) (cRegId : CRegID) : CAccount :=
  { CAccount.null with cKeyID := contractKeyId cr cRegId, cRegID := cRegId }

/-- The registrant after the fee, and the log when there is one. -/
def payFee (node : Node) (tx : CRegisterAppTx) (nHeight : ℤ) (cAcctInfo : CAccount) :
    Exec (CAccount × List CAccountLog) :=
  if 0 < tx.ullFees then do
    let a ← Exec.ofOption (cAcctInfo.operateAccount node.cfg .minusFree tx.ullFees nHeight)
      (Exec.withRegID tx.cRegAcctId fun _ => Exec.updateFail "operate-account-failed")
    return (a, [CAccountLog.ofAccount cAcctInfo])
  else .ok (cAcctInfo, [])

/-- `CRegisterAppTx::ExecuteTx`. -/
def executeTx (node : Node) (tx : CRegisterAppTx) (nIndex nHeight : ℤ) (vs : Views) :
    Exec Executed := do
  let cAcctInfo ← Exec.ofOption (vs.view.getAccount node.cr tx.cRegAcctId)
    (Exec.updateFail "bad-read-accountdb")
  let (acct, accountLogs) ← tx.payFee node nHeight cAcctInfo
  tx.checkScript node nHeight
  let cRegId := CRegID.ofPosition nHeight nIndex
  let s ← (vs.scriptDB.setScript cRegId.getVec6 tx.vchScript).onFalse
    (updateFailCall "bad-save-scriptdb")
  let view := vs.view.saveAccountInfo cRegId (contractKeyId node.cr cRegId)
    (contractAccount node.cr cRegId)
  let view := view.setAccountKey acct.cKeyID acct
  let hash := (CBaseTransaction.registerApp tx).getHash node.cr.Hash
  let (s, logs) ← writeAddressIndex node ⟨view, s⟩ [tx.cRegAcctId] nHeight nIndex hash
  Exec.require (¬ (limiteAppHeight < nHeight ∧ acct.cKeyID ≠ appRegistrant)) Exec.returnFalse
  return ⟨⟨view, s⟩, ⟨hash, accountLogs, logs⟩, UInt64.ofNat tx.vchScript.length⟩

/-- The script, the id and the account of the contract are removed, unless the script field is
six bytes long. -/
def eraseContract (node : Node) (tx : CRegisterAppTx) (cScriptId : CRegID) (vs : Views) :
    Exec Views :=
  if tx.vchScript.length = 6 then .ok vs
  else do
    let s ← (vs.scriptDB.eraseScript cScriptId.getVec6).onFalse
      (updateFailCall "erase-script-failed")
    let view := (vs.view.eraseKeyId cScriptId).eraseAccountKey (contractKeyId node.cr cScriptId)
    return ⟨view, s⟩

/-- The registrant after its logs are put back. -/
def undoFee (undo : CTxUndo) (cAccount : CAccount) : CAccount :=
  (undo.vcAccountLog.filter (·.cKeyID == cAccount.cKeyID)).foldl CAccount.undoOperateAccount cAccount

/-- `CRegisterAppTx::UndoExecuteTx`. -/
def undoExecuteTx (node : Node) (tx : CRegisterAppTx) (nIndex nHeight : ℤ) (vs : Views)
    (undo : CTxUndo) : Exec Views := do
  let cAccount ← Exec.ofOption (vs.view.getAccount node.cr tx.cRegAcctId)
    (Exec.updateFail "bad-read-accountdb")
  let vs ← tx.eraseContract node (CRegID.ofPosition nHeight nIndex) vs
  let cAccount := undoFee undo cAccount
  let s ← undo.vcScriptOperLog.reverse.foldlM (undoScriptLog "undo-scriptdb-failed") vs.scriptDB
  return ⟨vs.view.setAccountKey cAccount.cKeyID cAccount, s⟩

end CRegisterAppTx

/-! ## Any transaction -/

namespace CBaseTransaction

/-- `ExecuteTx` with `m_nFuelRate` set to `nFuelRate`. -/
def executeTx (node : Node) (tx : CBaseTransaction) (nIndex nHeight : ℤ) (nFuelRate : Int32)
    (vs : Views) : Exec Executed :=
  match tx with
  | reward tx => tx.executeTx node nIndex nHeight vs
  | registerAccount tx => tx.executeTx node nIndex nHeight vs
  | transaction tx => tx.executeTx node nIndex nHeight nFuelRate vs
  | registerApp tx => tx.executeTx node nIndex nHeight vs

/-- `UndoExecuteTx`. -/
def undoExecuteTx (node : Node) (tx : CBaseTransaction) (nIndex nHeight : ℤ) (vs : Views)
    (undo : CTxUndo) : Exec Views :=
  match tx with
  | registerAccount tx => tx.undoExecuteTx node nIndex nHeight vs undo
  | registerApp tx => tx.undoExecuteTx node nIndex nHeight vs undo
  | tx => undoExecuteBase node.cr tx.chTxType (tx.getHash node.cr.Hash) vs undo

end CBaseTransaction

end Dacrs
