import Dacrs.Execute

/-!
# Checking transactions and blocks

`CheckTransaction` with the four `CheckTransction`s, and `CheckBlock`.  Every failing check makes
its call on the validation state before it returns false; `CheckBlock` passes a failing
transaction check on without a call of its own.
-/

open Codec (Bytes)

namespace Dacrs

/-- MAX_BLOCK_SIZE, `g_sUpdateTxVersion2Height`, `g_sTwelveForwardLimits`. -/
def maxBlockSize : Nat := 1000000
def updateTxVersion2Height : ℤ := 196000
def twelveForwardLimits : UInt32 := 28000

/-- `DoS(100, …, REJECT_INVALID, reason)`. -/
def Exec.reject {α : Type} (reason : String) : Exec α := Exec.doS 100 rejectInvalid reason

/-- `CheckSignScript`; the signature cache remembers only what was verified. -/
def checkSignScript (cr : Crypto) (cSigHash : Uint256) (vchSignature : Bytes) (cPubKey : CPubKey) :
    Bool :=
  cPubKey.isFullyValid cr && cr.verify cPubKey.vch cSigHash vchSignature

/-! ## Transactions -/

def CUserID.isPubKey : CUserID → Bool
  | .pubKey _ => true
  | _ => false

def CUserID.isRegID : CUserID → Bool
  | .regID _ => true
  | _ => false

def CUserID.isKeyID : CUserID → Bool
  | .keyID _ => true
  | _ => false

/-- `CRegisterAccountTx::CheckTransction`. -/
def CRegisterAccountTx.checkTransction (node : Node) (tx : CRegisterAccountTx) : Exec Unit :=
  match tx.cUserId with
  | .pubKey pk => do
    Exec.require (tx.cMinerId.isPubKey ∨ tx.cMinerId = .null) (Exec.reject "minerid-type-error")
    Exec.require (pk.isFullyValid node.cr) (Exec.reject "bad-regtx-publickey")
    let cSighash := (CBaseTransaction.registerAccount tx).signatureHash node.cr.Hash
    Exec.require (checkSignScript node.cr cSighash tx.vchSignature pk)
      (Exec.reject "bad-regtx-signature")
    Exec.require (node.cfg.moneyRange tx.llFees) (Exec.reject "bad-regtx-fee-toolarge")
  | _ => Exec.reject "userid-type-error"

/-- The account behind a registration id is registered and has signed. -/
def checkAccountSign (node : Node) (view : CAccountViewCache) (r : CRegID) (cSighash : Uint256)
    (vchSignature : Bytes) : Exec Unit := do
  let cAcctInfo ← Exec.ofOption (view.getAccountReg r) (Exec.reject "bad-getaccount")
  Exec.require (cAcctInfo.isRegister node.cr) (Exec.reject "bad-no-pubkey")
  Exec.require (checkSignScript node.cr cSighash vchSignature cAcctInfo.cPublicKey)
    (Exec.reject "bad-signscript-check")

/-- `CTransaction::CheckTransction`; the transferred value is not looked at. -/
def CTransaction.checkTransction (node : Node) (tx : CTransaction) (view : CAccountViewCache) :
    Exec Unit :=
  match tx.cSrcRegId with
  | .regID r => do
    Exec.require (tx.cDesUserId.isRegID ∨ tx.cDesUserId.isKeyID)
      (Exec.reject "desaddr-type-error")
    Exec.require (node.cfg.moneyRange tx.ullFees.toInt64) (Exec.reject "bad-appeal-fee-toolarge")
    let cSighash := (CBaseTransaction.transaction tx).signatureHash node.cr.Hash
    checkAccountSign node view r cSighash tx.vchSignature
  | _ => Exec.reject "srcaddr-type-error"

/-- The fee a registration of a contract must at least pay.  The rate is that of the transaction
object, which has none yet when its block is checked. -/
def CRegisterAppTx.minFuel (node : Node) (tx : CRegisterAppTx) (s : CScriptDBViewCache) : UInt64 :=
  let hash := (CBaseTransaction.registerApp tx).getHash node.cr.Hash
  let llFuel := UInt64.ofInt ((tx.vchScript.length / 100 : ℕ) * (getFuelRate node s hash 0).toInt)
  if llFuel < UInt64.ofInt coin then UInt64.ofInt coin else llFuel

/-- `CRegisterAppTx::CheckTransction`. -/
def CRegisterAppTx.checkTransction (node : Node) (tx : CRegisterAppTx) (view : CAccountViewCache)
    (s : CScriptDBViewCache) : Exec Unit :=
  match tx.cRegAcctId with
  | .regID r => do
    Exec.require (node.cfg.moneyRange tx.ullFees.toInt64) (Exec.reject "fee-too-large")
    Exec.require (¬ tx.ullFees < tx.minFuel node s) (Exec.reject "fee-too-litter")
    let cSighash := (CBaseTransaction.registerApp tx).signatureHash node.cr.Hash
    checkAccountSign node view r cSighash tx.vchSignature
  | _ => Exec.reject "regacctid-type-error"

namespace CBaseTransaction

/-- `CheckTransction`. -/
def checkTransction (node : Node) (view : CAccountViewCache) (s : CScriptDBViewCache) :
    CBaseTransaction → Exec Unit
  | reward _ => .ok ()
  | registerAccount tx => tx.checkTransction node
  | transaction tx => tx.checkTransction node view
  | registerApp tx => tx.checkTransction node view s

/-- `CheckTransaction`. -/
def checkTransaction (node : Node) (tx : CBaseTransaction) (view : CAccountViewCache)
    (s : CScriptDBViewCache) : Exec Unit :=
  if tx.chTxType = .reward then .ok ()
  else do
    Exec.require (¬ (updateTxVersion2Height < tx.nValidHeight ∧ tx.nVersion ≠ txVersion2))
      (Exec.doS 100 0 "")
    Exec.require (tx.serializePtr.length ≤ maxBlockSize) (Exec.reject "bad-txns-oversize")
    tx.checkTransction node view s

end CBaseTransaction

/-! ## Blocks -/

namespace CBlock

/-- `CheckTransaction` when it is asked for. -/
def checkTxIf (node : Node) (view : CAccountViewCache) (s : CScriptDBViewCache) (bCheckTx : Bool)
    (tx : CBaseTransaction) : Exec Unit :=
  if bCheckTx then tx.checkTransaction node view s else .ok ()

/-- One turn of the loop over the transactions. -/
def checkBlockTx (node : Node) (b : CBlock) (view : CAccountViewCache) (s : CScriptDBViewCache)
    (bCheckTx : Bool) (item : CBaseTransaction × ℕ) : Exec Unit := do
  checkTxIf node view s bCheckTx item.1
  Exec.require (¬ (b.getHash node.cr.Hash ≠ node.cfg.cHashGenesisBlock ∧ item.2 ≠ 0 ∧
    item.1.isCoinBase)) (Exec.reject "bad-cb-multiple")

/-- `CheckBlock`. -/
def checkBlock (node : Node) (b : CBlock) (view : CAccountViewCache) (s : CScriptDBViewCache)
    (bCheckTx bCheckMerkleRoot : Bool) : Exec Unit := do
  Exec.require (b.vptx ≠ [] ∧ b.vptx.length ≤ maxBlockSize ∧ b.serialize.length ≤ maxBlockSize)
    (Exec.reject "bad-blk-length")
  Exec.require (¬ (updateBlockVersionHeight ≤ b.unHeight ∧ b.nVersion ≠ blockVersion3))
    (Exec.invalid rejectInvalid "block-version-error")
  Exec.require (¬ (twelveForwardLimits < b.unHeight ∧
    node.adjustedTime + 12 * 60 < b.unTime.toNat)) (Exec.invalid rejectInvalid "time-too-new")
  Exec.require ((b.vptx.head?.map CBaseTransaction.isCoinBase) = some true)
    (Exec.reject "bad-cb-missing")
  b.vptx.zipIdx.forM (b.checkBlockTx node view s bCheckTx)
  Exec.require (b.vptx.map (CBaseTransaction.getHash node.cr.Hash)).Nodup
    (Exec.doS 100 rejectInvalid "bad-txns-duplicate" true)
  Exec.require (¬ (bCheckMerkleRoot ∧ b.cHashMerkleRoot ≠ b.buildMerkleTree node.cr.Hash))
    (Exec.doS 100 rejectInvalid "bad-txnmrklroot" true)
  Exec.require (b.unNonce ≤ blockMaxNonce) (Exec.invalid rejectInvalid "Nonce-too-large")

end CBlock

end Dacrs
