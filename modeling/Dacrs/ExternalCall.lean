import Dacrs.AppOutput
import Dacrs.Check
import Dacrs.DataRead
import Dacrs.ScriptJournal
import Dacrs.Vm8051

/-!
# The calls out of the 8051 core

`GetData` takes the parameters of a call from the shared memory, `FunMap` holds one handler for each
method, and `CallExternalFunc` picks one by its number.  A handler refuses (0), succeeds (1) or ends the
run (-1), reports its own steps, and hands back byte strings; what it violates on the way is an exit.
-/

open Codec (Bytes Reader)

namespace Dacrs

/-! ## Records taken from parameters -/

namespace CVmOperate

/-- The serialized size. -/
def size : ℕ := 48

def unserialize : Reader CVmOperate := do
  let uchNaccType ← Codec.u8.read
  let arruchAccountId ← Codec.readAll Codec.u8 34
  let uchOpeatorType ← Codec.u8.read
  let unOutHeight ← Codec.u32.read
  let arruchMoney ← Codec.u64.read
  return { uchNaccType, arruchAccountId := Vector.ofFn fun i => arruchAccountId.getD i 0
           uchOpeatorType, unOutHeight, arruchMoney }

def unserializeAll : ℕ → Reader (List CVmOperate)
  | 0 => return []
  | n + 1 => do
    let r ← unserialize
    let rest ← unserializeAll n
    return r :: rest

end CVmOperate

namespace CAppUserAccout

/-- `GetAppCFund`. -/
def getAppCFund (a : CAppUserAccout) (vuchTag : Bytes) (nHeight : ℤ) : Option CAppCFund :=
  a.vcFreezedFund.find? fun fund => nHeight == fund.nHeight && fund.vTag == vuchTag

end CAppUserAccout

namespace CVm8051

/-! ## Parameters -/

/-- A parameter: `GetData` lets no empty one through. -/
abbrev Para := { vch : Bytes // vch ≠ [] }

/-- `GetParaLen`. -/
def getParaLen (pbuf : Bytes) : ℕ := (pbuf.getD 0 0).toNat + 256 * (pbuf.getD 1 0).toNat

/-- The loop of `GetData`, with as many turns as there can be. -/
def getParas : ℕ → ℕ → Bytes → Option (List Para)
  | _, 0, _ => some []
  | 0, _ + 1, _ => none
  | n + 1, totallen, pbuf =>
    let length := getParaLen pbuf
    if length = 0 ∨ totallen < length + 2 then none
    else
      let vch := (pbuf.drop 2).take length
      if h : vch ≠ [] then
        (getParas n (totallen - (length + 2)) (pbuf.drop (length + 2))).map (⟨vch, h⟩ :: ·)
      else none

/-- `GetData`. -/
def getData (ipara : Bytes) : Option (List Para) :=
  let totallen := getParaLen ipara
  if totallen = 0 ∨ maxShareRam ≤ totallen then none
  else getParas totallen totallen (ipara.drop 2)

/-! ## Handlers -/

/-- `RET_DEFINE`: the status, the steps, what is handed back. -/
structure RetDefine where
  status : ℤ
  step : ℤ
  data : List Bytes

/-- `RetFalse`, and every other refusal without data. -/
def retFalse : RetDefine := ⟨0, 0, []⟩

def retTrue (data : List Bytes) : RetDefine := ⟨1, 0, data⟩

/-- What the handlers change: the script caches over the database, the calls made on the contract data,
and the two outputs. -/
structure VmState where
  db : CScriptDB
  caches : List ScriptCache
  dbOps : List VmDbOp
  output : List CVmOperate
  appOperate : AppOutput

namespace VmState

/-- The flat view of the contract data. -/
def scriptDB (st : VmState) : CScriptDBViewCache := ScriptStack.view st.db st.caches

/-- `GetData`: what is found is copied into the caches it was not in. -/
def getData (st : VmState) (key : Bytes) : Option Bytes × VmState :=
  let (v, caches) := ScriptStack.getData st.db st.caches key
  (v, { st with caches := caches })

theorem getData_fst (st : VmState) (key : Bytes) : (st.getData key).1 = st.scriptDB.getData key := by
  obtain ⟨hval, -⟩ := ScriptStack.getData_spec st.db st.caches key
  exact hval.trans (ScriptStack.getData_view st.db st.caches key).symm

/-- The copies change no answer. -/
theorem getData_getData (st : VmState) (key k : Bytes) :
    (st.getData key).2.scriptDB.getData k = st.scriptDB.getData k := by
  obtain ⟨-, hsame⟩ := ScriptStack.getData_spec st.db st.caches key
  calc (st.getData key).2.scriptDB.getData k
      = ScriptStack.data st.db (st.getData key).2.caches k := ScriptStack.getData_view ..
    _ = ScriptStack.data st.db st.caches k := hsame k
    _ = st.scriptDB.getData k := (ScriptStack.getData_view ..).symm

end VmState

/-- What the core gets from outside the model: a library, the block files, a switch, and what the input of
a run does not tell. -/
structure VmLibrary where
  /-- `DES_ecb_encrypt` and `DES_ecb3_encrypt` under a key of 8 or 16 bytes, or the inverse, of a block -/
  des : Bool → Bytes → Bytes → Vector UInt8 8
  /-- the transaction in the block files at a record of the index -/
  readTx : Bytes → Option CBaseTransaction
  /-- "-isdbtraversal" -/
  bDbTraversal : Bool
  /-- the database and the caches behind the script view of a run -/
  layers : (input : VmInput) → { p : CScriptDB × List ScriptCache // ScriptStack.Shows p.1 p.2 input.scriptDB }
  /-- the memory that follows `m_ExeFile` in a run -/
  behind : VmInput → ℕ → UInt8

/-- A handler gets what `GetData` makes of the shared memory. -/
abbrev Handler := Option (List Para) → VmState → Exec (RetDefine × VmState)

def refuse (st : VmState) : Exec (RetDefine × VmState) := .ok (retFalse, st)
def answer (data : List Bytes) (st : VmState) : Exec (RetDefine × VmState) := .ok (retTrue data, st)

/-- An answer, or a refusal where there is none. -/
def answerOption (data : Option Bytes) (st : VmState) : Exec (RetDefine × VmState) :=
  match data with
  | some vch => answer [vch] st
  | none => refuse st

/-- The bytes of a `bool`. -/
def boolBytes (on : Bool) : Bytes := [if on then 1 else 0]

section
variable (node : Node) (lib : VmLibrary) (tx : CTransaction) (view : CAccountViewCache) (des : CRegID)
  (nHeight : ℤ)

/-! ### Arithmetic -/

def int64Of (vch : Bytes) : Int64 := ((Codec.i64.read vch).map Prod.fst).getD 0

/-- Two parameters of eight bytes. -/
def exInt64Func (f : Int64 → Int64 → Exec (Option Bytes)) : Handler
  | some [p, q], st =>
    if p.val.length = 8 ∧ q.val.length = 8 then do
      let r ← f (int64Of p.val) (int64Of q.val)
      answerOption r st
    else refuse st
  | _, st => refuse st

def exInt64CompFunc : Handler :=
  exInt64Func fun m1 m2 => .ok (some [if m2 < m1 then 2 else if m1 = m2 then 0 else 1])

def exInt64MullFunc : Handler := exInt64Func fun m1 m2 => .ok (some (Codec.i64.write (m1 * m2)))
def exInt64AddFunc : Handler := exInt64Func fun m1 m2 => .ok (some (Codec.i64.write (m1 + m2)))
def exInt64SubFunc : Handler := exInt64Func fun m1 m2 => .ok (some (Codec.i64.write (m1 - m2)))

/-- A quotient that `int64_t` does not have. -/
def int64Div (m1 m2 : Int64) : Exec (Option Bytes) :=
  if m2 = 0 then .ok none
  else if m1 = Int64.minValue ∧ m2 = -1 then Exec.throw "INT64_MIN / -1"
  else .ok (some (Codec.i64.write (m1 / m2)))

def exInt64DivFunc : Handler := exInt64Func int64Div

/-! ### Cryptography -/

def exSha256Func : Handler
  | some [p], st => answer [uint256Codec.write (node.cr.Hash p.val)] st
  | _, st => refuse st

/-- The blocks of eight bytes, the last one filled up. -/
def desBlocks (f : Bytes → Vector UInt8 8) : ℕ → Bytes → Bytes
  | 0, _ => []
  | n + 1, vch => (f ((vch ++ List.replicate 8 0).take 8)).toList ++ desBlocks f n (vch.drop 8)

def exDesFunc : Handler
  | some [p, q, r], st =>
    if q.val.length = 8 ∨ q.val.length = 16 then
      answer [desBlocks (lib.des (r.val.head r.property == 1) q.val) ((p.val.length + 7) / 8) p.val] st
    else refuse st
  | _, st => refuse st

def exVerifySignatureFunc : Handler
  | some [p, q, r], st =>
    if q.val.length = 33 ∧ r.val.length = 32 then
      let hash : Uint256 := ((uint256Codec.read r.val).map Prod.fst).getD 0
      if checkSignScript node.cr hash p.val (CPubKey.ofBytes q.val) then answer [boolBytes true] st
      else refuse st
    else refuse st
  | _, st => refuse st

def exSignatureFunc : Handler := fun _ st => answer [] st

def exLogPrintFunc : Handler
  | some [_, _], st => answer [] st
  | _, st => refuse st

/-! ### The chain -/

/-- `GetTransaction`, without the memory pool. -/
def getTransaction (st : VmState) (hash : Uint256) : Option CBaseTransaction × VmState :=
  if node.cfg.bTxIndex then
    let (record, st) := st.getData (CScriptDBViewCache.txIndexKey hash)
    (record.bind lib.readTx, st)
  else (none, st)

/-- What follows the cast to `CTransaction *`: the class is not looked at. -/
def asTransaction {α : Type} (t : CBaseTransaction) (f : CTransaction → Exec α) : Exec α :=
  match t with
  | .transaction tx => f tx
  | _ => Exec.throw "static_cast<CTransaction*>"

def hashOf (vch : Bytes) : Uint256 := ((uint256Codec.read vch).map Prod.fst).getD 0

def exGetTxContractsFunc : Handler
  | some [p], st =>
    if p.val.length = 32 then
      let (pBaseTx, st) := getTransaction node lib st (hashOf p.val)
      match pBaseTx with
      | some t => asTransaction t fun tx => answer [tx.vchContract] st
      | none => refuse st
    else refuse st
  | _, st => refuse st

/-- `boost::get<CRegID>(tx->m_cSrcRegId).GetVec6()`. -/
def srcVec6 (tx : CTransaction) : Exec Bytes :=
  match tx.cSrcRegId with
  | .regID r => .ok r.getVec6
  | _ => Exec.throw "boost::bad_get"

def exGetTxAccountsFunc : Handler
  | some [p], st =>
    if p.val.length = 32 then
      let (pBaseTx, st) := getTransaction node lib st (hashOf p.val)
      match pBaseTx with
      | some t => asTransaction t fun tx => do
        let item ← srcVec6 tx
        answer [item] st
      | none => refuse st
    else refuse st
  | _, st => refuse st

/-- The account an id of 6 or 34 bytes names. -/
def accountOf (vch : Bytes) : Option CAccount :=
  (CTransaction.appUserKeyId node view vch).bind fun k => view.getAccount node.cr (.keyID k)

def exGetAccountPublickeyFunc : Handler
  | some [p], st =>
    if p.val.length = 6 ∨ p.val.length = 34 then
      match accountOf node view p.val with
      | some a =>
        if a.cPublicKey.isFullyValid node.cr then answer [a.cPublicKey.vch] st
        else Exec.throw "assert(aAccount.m_cPublicKey.IsFullyValid())"
      | none => refuse st
    else refuse st
  | _, st => refuse st

def exQueryAccountBalanceFunc : Handler
  | some [p], st =>
    if p.val.length = 6 ∨ p.val.length = 34 then
      answerOption ((accountOf node view p.val).map fun a => Codec.u64.write a.ullValues) st
    else refuse st
  | _, st => refuse st

/-- `GetTxComfirmHigh`; `none` is -1. -/
def getTxComfirmHigh (st : VmState) (hash : Uint256) : Option UInt32 × VmState :=
  if node.cfg.bTxIndex then
    let (record, st) := st.getData (CScriptDBViewCache.txIndexKey hash)
    ((record.bind node.disk.readHeader).bind fun header =>
      if header.unHeight = 0xFFFFFFFF then none else some header.unHeight, st)
  else (none, st)

def exGetTxConFirmHeightFunc : Handler
  | some [p], st =>
    if p.val.length = 32 then
      let (height, st) := getTxComfirmHigh node st (hashOf p.val)
      answerOption (height.map Codec.u32.write) st
    else refuse st
  | _, st => refuse st

def exGetBlockHashFunc : Handler
  | some [p], st =>
    if p.val.length = 4 then
      let height : ℤ := (((Codec.i32.read p.val).map Prod.fst).getD 0).toInt
      if height ≤ 0 ∨ nHeight ≤ height then refuse st
      else if (node.chainActive.length : ℤ) - 1 < height then refuse st
      else match chainAt node.chainActive height with
        | some pindex => answer [uint256Codec.write pindex.hashBlock] st
        | none => Exec.throw "pindex is NULL"
    else refuse st
  | _, st => refuse st

def exGetCurRunEnvHeightFunc : Handler := fun _ st =>
  answer [Codec.i32.write (Int32.ofInt nHeight)] st

/-! ### Contract data -/

/-- `GetScriptData` by key. -/
def getScriptData (st : VmState) (id key : Bytes) : Option Bytes × VmState :=
  st.getData (CScriptDBViewCache.scriptDataKey id key)

/-- What a call that is refused leaves: it has read the counter, or looked for a key that is not there. -/
def refusedCall (id : Bytes) (st : VmState) : VmDbOp → VmState
  | .set .. => (st.getData (CScriptDBViewCache.scriptDataCountKey id)).2
  | .erase key =>
    if ScriptStack.haveData st.db st.caches (CScriptDBViewCache.scriptDataKey id key) then
      (st.getData (CScriptDBViewCache.scriptDataCountKey id)).2
    else st

/-- A call on the contract data, whether it succeeded, and its place in the journal. -/
def dbCall (id : Bytes) (op : VmDbOp) (st : VmState) : Exec (Bool × VmState) :=
  let r := match op with
    | .set key value _ => ScriptStack.setScriptData st.db st.caches id key value
    | .erase key => ScriptStack.eraseScriptData st.db st.caches id key
  match r with
  | .ok (caches, _) => .ok (true, { st with caches := caches, dbOps := st.dbOps ++ [op] })
  | .error (.fail _) => .ok (false, refusedCall id st op)
  | .error (.throw what) => Exec.throw what

def exWriteDataDBFunc : Handler
  | some [p, q], st => do
    let (flag, st) ← dbCall des.getVec6 (.set p.val q.val q.property) st
    return (⟨1, q.val.length - 1, [boolBytes flag]⟩, st)
  | _, st => refuse st

/-- Deleting data gives steps back. -/
def exDeleteDataDBFunc : Handler
  | some [p], st => do
    let (vValue, st) := getScriptData st des.getVec6 p.val
    let nstep : ℤ := match vValue with
      | some vValue => -(vValue.length + 1)
      | none => 0
    let (flag, st) ← dbCall des.getVec6 (.erase p.val) st
    return (⟨1, nstep, [boolBytes flag]⟩, st)
  | _, st => refuse st

def exReadDataValueDBFunc : Handler
  | some [p], st =>
    let (vValue, st) := getScriptData st des.getVec6 p.val
    answerOption vValue st
  | _, st => refuse st

def exGetDBSizeFunc : Handler := fun _ st => do
  let (count, caches) ← ScriptStack.getScriptDataCount st.db st.caches des.getVec6
  answerOption (count.map Codec.i32.write) { st with caches := caches }

/-- `memcpy` of an `int` from a parameter of any length. -/
def intOf (vch : Bytes) : Exec Int32 :=
  if vch.length < 4 then Exec.throw "memcpy past the parameter"
  else .ok (((Codec.i32.read vch).map Prod.fst).getD 0)

/-- `GetScriptData` by index: the first record, or the next one after a key. -/
def getDBValue (vchScriptKey : Option Bytes) (st : VmState) : Exec (RetDefine × VmState) :=
  match ScriptStack.getScriptData st.db des.getVec6 (ScriptStack.rounds st.db st.caches) st.caches vchScriptKey with
  | .ok (some (key, value)) => answer [key, value] st
  | .ok none => refuse st
  -- the rounds are enough, so that only a comparison can fail
  | .error _ => Exec.throw "bytes past the end of a key"

def exGetDBValueFunc : Handler := fun para st =>
  if lib.bDbTraversal = false then refuse st
  else match para with
    | some [p] => do
      let index ← intOf p.val
      if index = 0 then getDBValue des none st else refuse st
    | some [p, q] => do
      let index ← intOf p.val
      if index = 0 then getDBValue des none st
      else if index = 1 then getDBValue des (some q.val) st
      else refuse st
    | _ => refuse st

def exGetCurTxHash : Handler := fun _ st =>
  answer [uint256Codec.write ((CBaseTransaction.transaction tx).getHash node.cr.Hash)] st

/-- The steps are the difference of the lengths, even when nothing was there to modify. -/
def exModifyDataDBVavleFunc : Handler
  | some [p, q], st =>
    let (vTemp, st) := getScriptData st des.getVec6 p.val
    match vTemp with
    | some vTemp => do
      let (flag, st) ← dbCall des.getVec6 (.set p.val q.val q.property) st
      return (⟨if flag then 1 else 0, (q.val.length : ℤ) - vTemp.length - 1, [boolBytes flag]⟩, st)
    | none => .ok (⟨0, (q.val.length : ℤ) - 1, [boolBytes false]⟩, st)
  | _, st => refuse st

def exGetScriptDataFunc : Handler
  | some [p, q], st =>
    if p.val.length = 6 then
      let (vValue, st) := getScriptData st p.val q.val
      answerOption vValue st
    else refuse st
  | _, st => refuse st

/-! ### The call itself -/

/-- `InsertOutputData`: a full output ends the run. -/
def exWriteOutputFunc : Handler
  | some [p], st =>
    if p.val.length % CVmOperate.size ≠ 0 then refuse st
    else do
      let (source, _) ← Exec.ofOption (CVmOperate.unserializeAll (p.val.length / CVmOperate.size) p.val)
        (Exec.throw "end of data")
      let output := st.output ++ source
      let status : ℤ := if output.length < CVmRunEvn.maxOutputCount then 1 else -1
      return (⟨status, 0, []⟩, { st with output := output })
  | _, st => refuse st

def exGetScriptIDFunc : Handler := fun _ st => answer [des.getVec6] st

def exGetCurTxAccountFunc : Handler := fun _ st => do
  let vUserId ← srcVec6 tx
  answer [vUserId] st

def exGetCurTxContactFunc : Handler := fun _ st => answer [tx.vchContract] st

/-- One number of a contract: its variable-length form read, its fixed form of so many bytes written. -/
def inflate (bits : ℕ) (contact : Bytes) : Option (Bytes × Bytes) :=
  ((Codec.varNat bits).read contact).map fun p => (Codec.leBytes (bits / 8) p.1, p.2)

/-- That a number of times, for single bytes. -/
def inflateBytes : ℕ → Bytes → Option (Bytes × Bytes)
  | 0, contact => some ([], contact)
  | n + 1, contact => do
    let (vch, contact) ← inflate 8 contact
    let (rest, contact) ← inflateBytes n contact
    return (vch ++ rest, contact)

/-- `Decompress`.  A format that ends with the type of a byte string is read past its end. -/
def decompress : Bytes → Bytes → Exec (Option Bytes)
  | [], _ => .ok (some [])
  | 6 :: [], _ => Exec.throw "*item past the end of the format"
  | 6 :: te :: format, contact =>
    match inflateBytes te.toNat contact with
    | none => .ok none
    | some (vch, contact) => do
      let rest ← decompress format contact
      return rest.map (vch ++ ·)
  | item :: format, contact =>
    -- the names of the types do not say how wide the numbers are
    let bits := if item < 3 then 16 else if item = 3 then 32 else 64
    if 6 < item then .ok none
    else match inflate bits contact with
      | none => .ok none
      | some (vch, contact) => do
        let rest ← decompress format contact
        return rest.map (vch ++ ·)

def exCurDeCompressContactFunc : Handler
  | some [p], st => do
    let outContact ← decompress p.val tx.vchContract
    answerOption outContact st
  | _, st => refuse st

def exDeCompressContactFunc : Handler
  | some [p, q], st =>
    if q.val.length = 32 then
      let (pBaseTx, st) := getTransaction node lib st (hashOf q.val)
      match pBaseTx with
      | some t => asTransaction t fun tx => do
        let outContact ← decompress p.val tx.vchContract
        answerOption outContact st
      | none => refuse st
    else refuse st
  | _, st => refuse st

def getCurTxPayAmountFunc : Handler := fun _ st => answer [Codec.u64.write tx.ullValues] st

/-! ### App accounts -/

/-- `GetAppUserAccout`; `none` is false. -/
def getAppUserAccout (st : VmState) (id : Bytes) : Exec (Option CAppUserAccout × VmState) :=
  let (_, copied) := st.getData (CScriptDBViewCache.scriptAccKey des.getVec6 id)
  match CVmRunEvn.getAppUserAccout node.chainActive st.scriptDB des nHeight id with
  | .ok a => .ok (some a, copied)
  | .error (.fail _) => .ok (none, copied)
  | .error (.throw what) => Exec.throw what

/-- `ST_APP_ID::GetIdV`, of a length and 40 bytes. -/
def getIdV (vch : Bytes) : Exec Bytes :=
  if (vch.headD 0).toNat ≤ maxTagSize then .ok ((vch.drop 1).take (vch.headD 0).toNat)
  else Exec.throw "assert(sizeof(arruchID) >= uchIdLen)"

def getUserAppAccValue : Handler
  | some [p], st =>
    if p.val.length = 41 then do
      let id ← getIdV p.val
      let (sptrAcc, st) ← getAppUserAccout node des nHeight st id
      answerOption (sptrAcc.map fun a => Codec.u64.write a.ullValues) st
    else refuse st
  | _, st => refuse st

/-- The fund of an account with the tag and the height of a record. -/
def foundFund (a : CAppUserAccout) (userfund : AppFundRecord) (st : VmState) : Exec (RetDefine × VmState) := do
  let tag ← userfund.getFundTagV
  answerOption ((a.getAppCFund tag (toInt32 userfund.unOutHeight)).map fun fund =>
    Codec.u64.write fund.nllValue) st

/-- That of the account a record names. -/
def fundOf (userfund : AppFundRecord) (st : VmState) : Exec (RetDefine × VmState) := do
  let id ← userfund.getAppUserV
  let (sptrAcc, st) ← getAppUserAccout node des nHeight st id
  match sptrAcc with
  | none => refuse st
  | some a => foundFund a userfund st

def getUserAppAccFoudWithTag : Handler
  | some [p], st =>
    if p.val.length = AppFundRecord.size then do
      let (userfund, _) ← Exec.ofOption (AppFundRecord.unserialize p.val) (Exec.throw "end of data")
      fundOf node des nHeight userfund st
    else refuse st
  | _, st => refuse st

/-- Whether the loop of `ExWriteOutAppOperateFunc` comes to a refused record. -/
def anyRefused (records : List AppFundRecord) : Bool := records.any (·.refused nHeight)

def exWriteOutAppOperateFunc : Handler
  | some [p], st =>
    if p.val.length % AppFundRecord.size ≠ 0 then refuse st
    else do
      let count := p.val.length / AppFundRecord.size
      let (records, _) ← Exec.ofOption (AppFundRecord.unserializeAll count p.val)
        (Exec.throw "end of data")
      let out ← writeOutAppOperate nHeight records st.appOperate
      let st := { st with appOperate := out }
      if anyRefused nHeight records then refuse st
      else return (⟨1, -1 + AppFundRecord.size * count, []⟩, st)
  | _, st => refuse st

def exGetBase58AddrFunc : Handler
  | some [p], st =>
    if p.val.length = 6 then
      answerOption ((CTransaction.appUserKeyId node view p.val).map (CKeyID.toAddress node.cfg node.cr)) st
    else refuse st
  | _, st => refuse st

/-! ## The table -/

/-- `FunMap`. -/
def funMap : List Handler :=
  [exInt64CompFunc, exInt64MullFunc, exInt64AddFunc, exInt64SubFunc, exInt64DivFunc, exSha256Func node,
    exDesFunc lib, exVerifySignatureFunc node, exSignatureFunc, exLogPrintFunc,
    exGetTxContractsFunc node lib, exGetTxAccountsFunc node lib, exGetAccountPublickeyFunc node view,
    exQueryAccountBalanceFunc node view, exGetTxConFirmHeightFunc node, exGetBlockHashFunc node nHeight,
    exGetCurRunEnvHeightFunc nHeight, exWriteDataDBFunc des, exDeleteDataDBFunc des,
    exReadDataValueDBFunc des, exGetDBSizeFunc des, exGetDBValueFunc lib des, exGetCurTxHash node tx,
    exModifyDataDBVavleFunc des, exWriteOutputFunc, exGetScriptDataFunc, exGetScriptIDFunc des,
    exGetCurTxAccountFunc tx, exGetCurTxContactFunc tx, exCurDeCompressContactFunc tx,
    exDeCompressContactFunc node lib, getCurTxPayAmountFunc tx, getUserAppAccValue node des nHeight,
    getUserAppAccFoudWithTag node des nHeight, exWriteOutAppOperateFunc nHeight,
    exGetBase58AddrFunc node view]

/-- `CallExternalFunc`: the method is not compared with the size of the table. -/
def callExternalFunc (method : ℕ) (ipara : Bytes) (st : VmState) : Exec (RetDefine × VmState) :=
  match (funMap node lib tx view des nHeight)[method]? with
  | some fun_ => fun_ (getData ipara) st
  | none => Exec.throw "FunMap[method] past the table"

end

end CVm8051

end Dacrs
