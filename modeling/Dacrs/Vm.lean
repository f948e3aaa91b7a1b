import Dacrs.AccountView
import Dacrs.Base58
import Dacrs.Burn

/-!
# Running a contract

`CVmRunEvn::run`: the checks before the interpreter, what the interpreter asks for, and how
that is applied to ordinary accounts and to app accounts.  The two interpreters themselves
(the 8051 core and the Lua library) are a parameter: they read the views, the active chain
and the block files, and leave behind a step count, writes to the contract's own data, and
operations on accounts.  All of this is a function of what they read.
-/

open Codec (Bytes Reader)

namespace Dacrs

/-! ## Contract code -/

structure CVmScript where
  vuchRom : Bytes
  vuchScriptExplain : Bytes
deriving DecidableEq, Inhabited

/-- `m_nScriptType`. -/
inductive ScriptType where
  | mcs8051
  | lua
deriving DecidableEq, Inhabited

namespace CVmScript

def unserialize : Reader CVmScript := do
  let vuchRom ← vchCodec.read
  let vuchScriptExplain ← vchCodec.read
  return { vuchRom, vuchScriptExplain }

/-- "mylib = require". -/
def luaHeader : Bytes :=
  [109, 121, 108, 105, 98, 32, 61, 32, 114, 101, 113, 117, 105, 114, 101]

/-- `memcmp(&m_vuchRom[4], "\x00\x02\x02", 3) >= 0`.  Bytes past the end, which the source
reads unchecked, are zero here. -/
def newSdk (s : CVmScript) : Bool :=
  let a := s.vuchRom.getD 4 0
  let b := s.vuchRom.getD 5 0
  let c := s.vuchRom.getD 6 0
  0 < a || 2 < b || (b == 2 && 2 ≤ c)

/-- `IsValid`, with the type it finds out; `none` is false. -/
def isValid (s : CVmScript) : Option ScriptType :=
  if 64 * 1024 < s.vuchRom.length ∨ s.vuchRom.length = 0 then none
  else if s.vuchRom.head? ≠ some 2 then
    if s.vuchRom.take 15 = luaHeader then some .lua else none
  else if s.newSdk ∧ s.vuchRom.getD 20 0 ≠ 0 ∧ s.vuchRom.getD 20 0 ≠ 1 then none
  else some .mcs8051

/-- `IsCheckAccount`. -/
def isCheckAccount (s : CVmScript) (type : ScriptType) : Bool :=
  match type with
  | .lua => false
  | .mcs8051 => s.newSdk && s.vuchRom.getD 20 0 == 1

end CVmScript

/-! ## What an interpreter leaves behind -/

/-- One entry of the output: money added to or taken from an account. -/
structure CVmOperate where
  uchNaccType : UInt8
  arruchAccountId : Vector UInt8 34
  uchOpeatorType : UInt8
  unOutHeight : UInt32
  /-- the eight bytes of `m_arruchMoney` as the `uint64_t` they are copied into -/
  arruchMoney : UInt64
deriving DecidableEq, Inhabited

namespace CVmOperate

/-- EM_REGID, EM_BASE_58_ADDR. -/
def emRegid : UInt8 := 1
def emBase58Addr : UInt8 := 2

/-- EM_ADD_FREE, EM_MINUS_FREE. -/
def emAddFree : UInt8 := 1
def emMinusFree : UInt8 := 2

/-- The cast to `emOperType`. -/
def operType (op : CVmOperate) : EmOperType :=
  if op.uchOpeatorType = emAddFree then .addFree
  else if op.uchOpeatorType = emMinusFree then .minusFree else .null

def serialize (op : CVmOperate) : Bytes :=
  op.uchNaccType :: op.arruchAccountId.toList ++ op.uchOpeatorType ::
    (Codec.u32.write op.unOutHeight ++ Codec.u64.write op.arruchMoney)

end CVmOperate

/-- A write to the contract's data.  Both interpreters refuse an empty value. -/
inductive VmDbOp where
  | set (key value : Bytes) (nonempty : value ≠ [])
  | erase (key : Bytes)

structure VmResult where
  /-- the step count: -1 when the limit is hit; the storage calls of the 8051 core also count down -/
  llStep : Int64
  /-- calls on the contract database, in order -/
  dbOps : List VmDbOp
  /-- `InsertOutputData` -/
  output : List CVmOperate
  /-- `InsertOutAPPOperte`, in call order -/
  appOperate : List (Bytes × CAppFundOperate)
  /-- `gCheckAccount` of a Lua contract -/
  bCheckAccount : Bool

/-! ## The node -/

/-- The block files: a block at an index entry, the header at a transaction-index record. -/
structure Disk where
  readBlockFromDisk : CBlockIndex → Option CBlock
  readHeader : Bytes → Option CBlockHeader

/-- What an interpreter reads. -/
structure VmInput where
  type : ScriptType
  script : CVmScript
  maxStep : UInt64
  tx : CTransaction
  view : CAccountViewCache
  scriptDB : CScriptDBViewCache
  nHeight : ℤ
  chainActive : PBlockIndex
  disk : Disk

/-- The files a node writes to.  A write may fail, with the text of the `Error` or `Abort` it ends
in where the function that writes makes that call itself. -/
structure DiskWrites where
  /-- `FindUndoPos`, for a file and a size -/
  findUndoPos : ℤ → ℕ → Except String UInt32
  /-- `CBlockUndo::WriteToDisk`, for a position and a record -/
  writeUndo : ℤ × UInt32 → Bytes → Bool
  /-- `g_pblocktree->WriteBlockIndex` -/
  writeBlockIndex : CDiskBlockIndex → Bool

/-- One node: configuration, libraries, block files, and the globals validation consults. -/
structure Node where
  cfg : SysCfg
  cr : Crypto
  /-- the interpreters; `none` is an exception -/
  vm : VmInput → Option VmResult
  /-- `CVmlua::syntaxcheck` -/
  luaSyntaxcheck : Bytes → Bool
  disk : Disk
  writes : DiskWrites
  /-- `g_cChainActive` -/
  chainActive : PBlockIndex
  /-- `g_mapBlockIndex` -/
  mapBlockIndex : Uint256 → Option PBlockIndex
  /-- `GetAdjustedTime()` -/
  adjustedTime : ℤ

/-- `ReadBlockFromDisk` for an index entry: what is read must have the entry's hash. -/
def Node.readBlockFromDisk (node : Node) (p : CBlockIndex) : Option CBlock :=
  (node.disk.readBlockFromDisk p).filter fun b => b.getHash node.cr.Hash = p.hashBlock

namespace CVmRunEvn

/-- MAX_OUTPUT_COUNT, `m_sMinTxFee`. -/
def maxOutputCount : Nat := 100
def minTxFee : UInt64 := 10000

/-- `InsertOutAPPOperte` on the map, kept in key order. -/
def insertOutAPPOperte (vuchUserId : Bytes) (op : CAppFundOperate) :
    List (Bytes × List CAppFundOperate) → List (Bytes × List CAppFundOperate)
  | [] => [(vuchUserId, [op])]
  | (k, ops) :: rest =>
    if k = vuchUserId then (k, ops ++ [op]) :: rest
    else if vuchUserId < k then (vuchUserId, [op]) :: (k, ops) :: rest
    else (k, ops) :: insertOutAPPOperte vuchUserId op rest

def mapAppOperate (l : List (Bytes × CAppFundOperate)) : List (Bytes × List CAppFundOperate) :=
  l.foldl (fun m p => insertOutAPPOperte p.1 p.2 m) []

/-! ## Contract data -/

/-- One call on the contract database; a call that returns false changes and logs nothing. -/
def dbStep (id : Bytes) (st : CScriptDBViewCache × List CScriptDBOperLog) (op : VmDbOp) :
    Exec (CScriptDBViewCache × List CScriptDBOperLog) :=
  let r := match op with
    | .set key value _ => st.1.setScriptData id key value
    | .erase key => st.1.eraseScriptData id key
  match r with
  | .ok (s, log) => .ok (s, st.2 ++ [log])
  | .error (.fail _) => .ok st
  | .error (.throw what) => Exec.throw what

def runDb (id : Bytes) (s : CScriptDBViewCache) (ops : List VmDbOp) :
    Exec (CScriptDBViewCache × List CScriptDBOperLog) :=
  ops.foldlM (dbStep id) (s, [])

/-! ## Ordinary accounts -/

section
variable (cfg : SysCfg) (cr : Crypto) (view : CAccountViewCache)

/-- `GetAccountID`. -/
def getAccountID (op : CVmOperate) : Bytes :=
  if op.uchNaccType = CVmOperate.emRegid then op.arruchAccountId.toList.take 6
  else if op.uchNaccType = CVmOperate.emBase58Addr then
    match view.getRegId cr (.keyID (CKeyID.ofAddress cfg cr op.arruchAccountId.toList)) with
    | some r => r.getVec6
    | none => op.arruchAccountId.toList
  else []

/-- The sums of `CheckOperate` after one operation: money added, money taken. -/
def checkSums (s : CScriptDBViewCache) (des : CRegID) (regid : Option CRegID)
    (sums : UInt64 × UInt64) (op : CVmOperate) : Option (UInt64 × UInt64) :=
  match op.operType with
  | .addFree => (safeAdd sums.1 op.arruchMoney).map fun v => (v, sums.2)
  | .minusFree => match regid with
    | none => none
    | some r =>
      if s.haveScript r.getVec6 ∧ r ≠ des then none
      else (safeAdd sums.2 op.arruchMoney).map fun v => (sums.1, v)
  | .null => none

/-- The checks on an account named by a registration id. -/
def checkRegid (s : CScriptDBViewCache) (regid : Option CRegID) (op : CVmOperate) : Bool :=
  match regid with
  | none => true
  | some r =>
    if r.isEmpty ∨ (view.getKeyId cr (.regID r)).getD 0 = 0 then false
    else if ¬ s.haveScript r.getVec6 ∧ op.operType = .minusFree then false
    else true

/-- `CheckOperate` on one operation.  `CRegID.ofVec6` fails exactly when the id is not six bytes
long. -/
def checkOperateOne (s : CScriptDBViewCache) (des : CRegID) (sums : UInt64 × UInt64)
    (op : CVmOperate) : Option (UInt64 × UInt64) :=
  let regid := CRegID.ofVec6 (getAccountID cfg cr view op)
  if op.uchNaccType ≠ CVmOperate.emRegid ∧ op.uchNaccType ≠ CVmOperate.emBase58Addr then none
  else match checkSums s des regid sums op with
    | none => none
    | some sums => if checkRegid cr view s regid op then some sums else none

/-- `CheckOperate`. -/
def checkOperate (s : CScriptDBViewCache) (des : CRegID) (ops : List CVmOperate) : Bool :=
  if maxOutputCount < ops.length then false
  else match ops.foldlM (checkOperateOne cfg cr view s des) (0, 0) with
    | none => false
    | some (add, minus) => add == minus

/-- The working copies of `OpeatorAccount`: `m_RawAccont`, whose objects are told apart by
their key ids, and `m_NewAccont`, which points to them. -/
structure AccountWork where
  rawAccont : Store CKeyID CAccount
  newAccont : List CKeyID

/-- The account an operation names, as the view has it; a fresh one for an unknown address. -/
def operateTarget (op : CVmOperate) : Option CAccount :=
  match CRegID.ofVec6 (getAccountID cfg cr view op) with
  | some r => view.getAccount cr (.regID r)
  | none =>
    let k := CKeyID.ofAddress cfg cr (getAccountID cfg cr view op)
    some ((view.getAccount cr (.keyID k)).getD (CAccount.fresh k))

/-- `OpeatorAccount` on one operation. -/
def opeatorAccountOne (nCurHeight : ℤ) (w : AccountWork) (op : CVmOperate) : Option AccountWork := do
  let tem ← operateTarget cfg cr view op
  let vmAccount := (w.rawAccont.lookup tem.cKeyID).getD tem
  let acct ← vmAccount.operateAccount cfg op.operType op.arruchMoney nCurHeight
  return ⟨w.rawAccont.put tem.cKeyID (some acct), w.newAccont ++ [tem.cKeyID]⟩

def opeatorAccount (nCurHeight : ℤ) (ops : List CVmOperate) : Option AccountWork :=
  ops.foldlM (opeatorAccountOne cfg cr view nCurHeight) ⟨∅, []⟩

/-! ## App accounts -/

/-- The signed sums of the app operations: added, taken. -/
def appSum (sums : Int64 × Int64) (op : CAppFundOperate) : Option (Int64 × Int64) :=
  if op.uchOpeatorType = addFreeOp ∨ op.uchOpeatorType = addTagOp then
    (safeAddInt op.llMoney sums.1).map fun v => (v, sums.2)
  else if op.uchOpeatorType = subFreeOp ∨ op.uchOpeatorType = subTagOp then
    (safeAddInt op.llMoney sums.2).map fun v => (sums.1, v)
  else some sums

/-- What the contract's own account pays out. -/
def sysContractAcct (des : CRegID) (total : UInt64) (op : CVmOperate) : Option UInt64 :=
  if getAccountID cfg cr view op = des.getVec6 ∧ op.operType = .minusFree then
    if op.arruchMoney.toInt64 < 0 then none else safeAdd op.arruchMoney total
  else some total

/-- `CheckAppAcctOperate`: what app users gain is what the contract's account gains. -/
def checkAppAcctOperate (des : CRegID) (ullValues : UInt64)
    (mapOp : List (Bytes × List CAppFundOperate)) (ops : List CVmOperate) : Bool :=
  let r : Option Bool := do
    let sums ← (mapOp.flatMap Prod.snd).foldlM appSum (0, 0)
    let sumValue ← safeSubtractInt sums.1 sums.2
    let paid ← ops.foldlM (sysContractAcct cfg cr view des) 0
    let sysAcctSum ← safeSubtractInt ullValues.toInt64 paid.toInt64
    return sumValue == sysAcctSum
  r.getD false

end

/-- State of `OpeatorAppAccount`. -/
structure AppWork where
  scriptDB : CScriptDBViewCache
  dblog : List CScriptDBOperLog
  rawAppUserAccout : List CAppUserAccout

/-- `GetAppUserAccout`: the stored account with matured funds freed, or a fresh one. -/
def getAppUserAccout (chainActive : PBlockIndex) (s : CScriptDBViewCache) (des : CRegID)
    (nHeight : ℤ) (vuchAppUserId : Bytes) : Exec CAppUserAccout := do
  match ← s.getScriptAcc des vuchAppUserId with
  | none => return CAppUserAccout.ofUser vuchAppUserId
  | some a => a.autoMergeFreezeToFree chainActive des.uHeight nHeight

/-- `Operate` on the operations of one user; when it fails each of them is printed. -/
def operateOrPrint (a : CAppUserAccout) (item : Bytes × List CAppFundOperate) : Exec CAppUserAccout :=
  match a.operate item.2 with
  | .error (.fail calls) => do
    item.2.forM (CAppFundOperate.toJSON item.1)
    .error (.fail calls)
  | r => r

theorem operateOrPrint_ok {a b : CAppUserAccout} {item : Bytes × List CAppFundOperate} :
    operateOrPrint a item = .ok b ↔ a.operate item.2 = .ok b := by
  unfold operateOrPrint
  cases a.operate item.2 with
  | ok c => exact Iff.rfl
  | error e =>
    cases e with
    | throw what => exact Iff.rfl
    | fail calls =>
      refine iff_of_false (fun h => ?_) nofun
      obtain ⟨u, -, hu⟩ := Except.bind_eq_ok.mp h
      cases hu

/-- `OpeatorAppAccount` on the operations of one user. -/
def opeatorAppAccountOne (chainActive : PBlockIndex) (des : CRegID) (nHeight : ℤ) (w : AppWork)
    (item : Bytes × List CAppFundOperate) : Exec AppWork := do
  let a ← getAppUserAccout chainActive w.scriptDB des nHeight item.1
  let a ← a.autoMergeFreezeToFree chainActive des.uHeight nHeight
  let raw := if w.rawAppUserAccout.any (·.vuchAccUserID == a.vuchAccUserID) then w.rawAppUserAccout
    else w.rawAppUserAccout ++ [a]
  let a ← operateOrPrint a item
  let (s, log) := w.scriptDB.setScriptAcc des a
  return ⟨s, w.dblog ++ [log], raw⟩

def opeatorAppAccount (chainActive : PBlockIndex) (des : CRegID) (nHeight : ℤ)
    (s : CScriptDBViewCache) (mapOp : List (Bytes × List CAppFundOperate)) : Exec AppWork :=
  mapOp.foldlM (opeatorAppAccountOne chainActive des nHeight) ⟨s, [], []⟩

/-! ## The run -/

/-- What `run` leaves in the environment for `ExecuteTx`. -/
structure Outcome where
  ullRunStep : UInt64
  scriptDB : CScriptDBViewCache
  dblog : List CScriptDBOperLog
  accounts : AccountWork
  rawAppUserAccout : List CAppUserAccout

/-- `intial`: the contract's code, checked. -/
def intial (s : CScriptDBViewCache) (des : CRegID) (tx : CTransaction) :
    Exec (CVmScript × ScriptType) := do
  let vuchScript ← Exec.ofOption (s.getScript des.getVec6) Exec.returnFalse
  match CVmScript.unserialize vuchScript with
  | none => Exec.throw "CVmScriptRun::intial() Unserialize to vmScript error"
  | some (script, _) =>
    let type ← Exec.ofOption script.isValid Exec.returnFalse
    Exec.require (tx.vchContract.length < 4 * 1024) Exec.returnFalse
    return (script, type)

/-- The step limit the fee pays for. -/
def maxStep (ullFees ullBurnFactor : UInt64) : UInt64 :=
  min ((ullFees - minTxFee) / ullBurnFactor * 100) maxBlockRunStep

/-- Both interpreters return -1 at once when they are given no steps. -/
def interpret (node : Node) (input : VmInput) : Exec VmResult :=
  if input.maxStep = 0 then Exec.returnFalse
  else match node.vm input with
    | none => Exec.throw "vm"
    | some r => .ok r

/-- The output log, when it is switched on. -/
def writeOutPut (cfg : SysCfg) (h : Uint256) (ops : List CVmOperate) (w : AppWork) :
    CScriptDBViewCache × List CScriptDBOperLog :=
  if cfg.bOutPut ∧ ops ≠ [] then
    let (s, log) := w.scriptDB.writeTxOutPut h
      (Codec.writeCompactSize ops.length ++ ops.flatMap CVmOperate.serialize)
    (s, w.dblog ++ [log])
  else (w.scriptDB, w.dblog)

/-- `run` on a contract transaction to `des`; `returnFalse` where the tuple starts with false. -/
def run (node : Node) (tx : CTransaction) (des : CRegID) (view : CAccountViewCache)
    (s : CScriptDBViewCache) (nHeight : ℤ) (ullBurnFactor : UInt64) : Exec Outcome := do
  Exec.require (ullBurnFactor ≠ 0) Exec.returnFalse
  Exec.require (minTxFee < tx.ullFees) Exec.returnFalse
  let (script, type) ← intial s des tx
  let r ← interpret node {
    type, script, maxStep := maxStep tx.ullFees ullBurnFactor, tx, view, scriptDB := s, nHeight,
    chainActive := node.chainActive, disk := node.disk }
  Exec.require (r.llStep ≠ 0 ∧ r.llStep ≠ -1) Exec.returnFalse
  let (s, dblog) ← runDb des.getVec6 s r.dbOps
  Exec.require (checkOperate node.cfg node.cr view s des r.output) Exec.returnFalse
  let accounts ← Exec.ofOption (opeatorAccount node.cfg node.cr view nHeight r.output)
    Exec.returnFalse
  let bCheckAccount := match type with
    | .mcs8051 => script.isCheckAccount .mcs8051
    | .lua => r.bCheckAccount
  let mapOp := mapAppOperate r.appOperate
  Exec.require (bCheckAccount = false ∨
    checkAppAcctOperate node.cfg node.cr view des tx.ullValues mapOp r.output) Exec.returnFalse
  let app ← opeatorAppAccount node.chainActive des nHeight s mapOp
  let hash := (CBaseTransaction.transaction tx).getHash node.cr.Hash
  let (s, outlog) := writeOutPut node.cfg hash r.output app
  let ullRunStep := r.llStep.toUInt64
  let _ ← Exec.ofOption (safeMultiply ullRunStep ullBurnFactor) Exec.returnFalse
  return ⟨ullRunStep, s, dblog ++ outlog, accounts, app.rawAppUserAccout⟩

end CVmRunEvn

end Dacrs
