import Dacrs.Types

/-!
# Transactions

The four transaction classes with every serialized field, their byte forms, and
their hashes.  A version-2 transaction is identified by its signature hash, which
leaves the signature out; every other version by the hash of all its bytes, which
leaves the class tag out.

The two in-memory fields of a transaction object (`m_ullRunStep`, `m_nFuelRate`)
are no part of its data: execution takes the fuel rate as an argument and returns
the run step.
-/

open Codec (Bytes)

namespace Dacrs

/-- `emTxType`, the tag byte in front of a serialized transaction. -/
inductive EmTxType where
  | reward
  | regAcct
  | common
  | contract
  | regApp
deriving DecidableEq, Inhabited

def EmTxType.tag : EmTxType → UInt8
  | reward => 1
  | regAcct => 2
  | common => 3
  | contract => 4
  | regApp => 5

/-- `g_sTxVersion2`. -/
def txVersion2 : ℤ := 2

structure CRegisterAccountTx where
  nVersion : ℤ
  nValidHeight : ℤ
  cUserId : CUserID
  cMinerId : CUserID
  llFees : Int64
  vchSignature : Bytes
deriving DecidableEq, Inhabited

/-- `CTransaction` serves two tags. -/
inductive CTransactionType where
  | common
  | contract
deriving DecidableEq, Inhabited

structure CTransaction where
  chTxType : CTransactionType
  nVersion : ℤ
  nValidHeight : ℤ
  cSrcRegId : CUserID
  cDesUserId : CUserID
  ullFees : UInt64
  ullValues : UInt64
  vchContract : Bytes
  vchSignature : Bytes
deriving DecidableEq, Inhabited

structure CRewardTransaction where
  nVersion : ℤ
  cAccount : CUserID
  ullRewardValue : UInt64
  nHeight : ℤ
deriving DecidableEq, Inhabited

structure CRegisterAppTx where
  nVersion : ℤ
  nValidHeight : ℤ
  cRegAcctId : CUserID
  vchScript : Bytes
  ullFees : UInt64
  vchSignature : Bytes
deriving DecidableEq, Inhabited

/-- The object behind a `std::shared_ptr<CBaseTransaction>`. -/
inductive CBaseTransaction where
  | reward (tx : CRewardTransaction)
  | registerAccount (tx : CRegisterAccountTx)
  | transaction (tx : CTransaction)
  | registerApp (tx : CRegisterAppTx)
deriving DecidableEq, Inhabited

namespace CTransactionType

def toTxType : CTransactionType → EmTxType
  | common => .common
  | contract => .contract

end CTransactionType

/-- A user id written as a `CID`. -/
def writeCID (id : CUserID) : Bytes := vchCodec.write id.toVector

/-! ## Serialization -/

def CRegisterAccountTx.serialize (tx : CRegisterAccountTx) : Bytes :=
  writeVarInt tx.nVersion ++ writeVarInt tx.nValidHeight ++ writeCID tx.cUserId ++
    writeCID tx.cMinerId ++ writeVarInt tx.llFees.toInt ++ vchCodec.write tx.vchSignature

def CTransaction.serialize (tx : CTransaction) : Bytes :=
  writeVarInt tx.nVersion ++ writeVarInt tx.nValidHeight ++ writeCID tx.cSrcRegId ++
    writeCID tx.cDesUserId ++ varUInt64.write tx.ullFees ++ varUInt64.write tx.ullValues ++
    vchCodec.write tx.vchContract ++ vchCodec.write tx.vchSignature

def CRewardTransaction.serialize (tx : CRewardTransaction) : Bytes :=
  writeVarInt tx.nVersion ++ writeCID tx.cAccount ++ varUInt64.write tx.ullRewardValue ++
    writeVarInt tx.nHeight

def CRegisterAppTx.serialize (tx : CRegisterAppTx) : Bytes :=
  writeVarInt tx.nVersion ++ writeVarInt tx.nValidHeight ++ writeCID tx.cRegAcctId ++
    vchCodec.write tx.vchScript ++ varUInt64.write tx.ullFees ++ vchCodec.write tx.vchSignature

/-! ## Signature hash preimages -/

def CRegisterAccountTx.signaturePreimage (tx : CRegisterAccountTx) : Bytes :=
  if tx.nVersion = txVersion2 then
    writeVarInt tx.nVersion ++ [EmTxType.regAcct.tag] ++ writeVarInt tx.nValidHeight ++
      writeCID tx.cUserId ++ writeCID tx.cMinerId ++ writeVarInt tx.llFees.toInt
  else
    writeVarInt tx.nVersion ++ [EmTxType.regAcct.tag] ++ writeCID tx.cUserId ++
      writeCID tx.cMinerId ++ writeVarInt tx.llFees.toInt ++ writeVarInt tx.nValidHeight

def CTransaction.signaturePreimage (tx : CTransaction) : Bytes :=
  if tx.nVersion = txVersion2 then
    writeVarInt tx.nVersion ++ [tx.chTxType.toTxType.tag] ++ writeVarInt tx.nValidHeight ++
      writeCID tx.cSrcRegId ++ writeCID tx.cDesUserId ++ varUInt64.write tx.ullFees ++
      varUInt64.write tx.ullValues ++ vchCodec.write tx.vchContract
  else
    writeVarInt tx.nVersion ++ [tx.chTxType.toTxType.tag] ++ writeVarInt tx.nValidHeight ++
      writeCID tx.cSrcRegId ++ writeCID tx.cDesUserId ++ varUInt64.write tx.ullFees ++
      vchCodec.write tx.vchContract

def CRewardTransaction.signaturePreimage (tx : CRewardTransaction) : Bytes :=
  if tx.nVersion = txVersion2 then
    writeVarInt tx.nVersion ++ [EmTxType.reward.tag] ++ writeCID tx.cAccount ++
      varUInt64.write tx.ullRewardValue ++ writeVarInt tx.nHeight
  else
    writeVarInt tx.nVersion ++ [EmTxType.reward.tag] ++ writeCID tx.cAccount ++
      varUInt64.write tx.ullRewardValue

def CRegisterAppTx.signaturePreimage (tx : CRegisterAppTx) : Bytes :=
  if tx.nVersion = txVersion2 then
    writeVarInt tx.nVersion ++ [EmTxType.regApp.tag] ++ writeVarInt tx.nValidHeight ++
      writeCID tx.cRegAcctId ++ vchCodec.write tx.vchScript ++ varUInt64.write tx.ullFees
  else
    writeCID tx.cRegAcctId ++ vchCodec.write tx.vchScript ++ varUInt64.write tx.ullFees ++
      writeVarInt tx.nValidHeight

namespace CBaseTransaction

def chTxType : CBaseTransaction → EmTxType
  | reward _ => .reward
  | registerAccount _ => .regAcct
  | transaction tx => tx.chTxType.toTxType
  | registerApp _ => .regApp

def nVersion : CBaseTransaction → ℤ
  | reward tx => tx.nVersion
  | registerAccount tx => tx.nVersion
  | transaction tx => tx.nVersion
  | registerApp tx => tx.nVersion

/-- A coinbase keeps the base class default: it has no valid height of its own. -/
def nValidHeight : CBaseTransaction → ℤ
  | reward _ => 0
  | registerAccount tx => tx.nValidHeight
  | transaction tx => tx.nValidHeight
  | registerApp tx => tx.nValidHeight

def isCoinBase (tx : CBaseTransaction) : Bool := tx.chTxType == .reward

/-- `GetFee`; the signed fee of a registration is converted. -/
def getFee : CBaseTransaction → UInt64
  | reward _ => 0
  | registerAccount tx => tx.llFees.toUInt64
  | transaction tx => tx.ullFees
  | registerApp tx => tx.ullFees

def serialize : CBaseTransaction → Bytes
  | reward tx => tx.serialize
  | registerAccount tx => tx.serialize
  | transaction tx => tx.serialize
  | registerApp tx => tx.serialize

/-- The form in a block: the tag, then the fields. -/
def serializePtr (tx : CBaseTransaction) : Bytes := tx.chTxType.tag :: tx.serialize

def signaturePreimage : CBaseTransaction → Bytes
  | reward tx => tx.signaturePreimage
  | registerAccount tx => tx.signaturePreimage
  | transaction tx => tx.signaturePreimage
  | registerApp tx => tx.signaturePreimage

/-- The bytes `GetHash` hashes. -/
def hashPreimage (tx : CBaseTransaction) : Bytes :=
  if tx.nVersion = txVersion2 then tx.signaturePreimage else tx.serialize

section
variable (Hash : Bytes → Uint256)

def signatureHash (tx : CBaseTransaction) : Uint256 := Hash tx.signaturePreimage

def getHash (tx : CBaseTransaction) : Uint256 := Hash tx.hashPreimage

end

/-- The window of heights a transaction may be mined in. -/
def isValidHeight (tx : CBaseTransaction) (nCurHeight nTxCacheHeight : ℤ) : Bool :=
  if tx.chTxType = .reward then true
  else if tx.nValidHeight > nCurHeight + nTxCacheHeight.tdiv 2 then false
  else if tx.nValidHeight < nCurHeight - nTxCacheHeight.tdiv 2 then false
  else true

end CBaseTransaction

end Dacrs
