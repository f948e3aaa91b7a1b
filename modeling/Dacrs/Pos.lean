import Dacrs.Check
import Dacrs.TxCache

/-!
# Proof of stake

`VerifyPosTx`: who may mine a block, and how the claimed hash is compared with the target that
grows with the miner's coin days.  It answers true or false and makes no call on the validation
state.
-/

open Codec (Bytes)

namespace Dacrs

/-! ## Targets -/

/-- `SetCompact`, of `CBigNum` as of `arith_uint256`: 256 bits of the magnitude. -/
def setCompact (nCompact : UInt32) : Uint256 :=
  let nSize := nCompact.toNat / 2 ^ 24
  let nWord := nCompact.toNat % 2 ^ 23
  BitVec.ofNat 256 (if nSize ≤ 3 then nWord / 256 ^ (3 - nSize) else nWord * 256 ^ (nSize - 3))

/-- The loop of `GetAdjustHash`: one turn for every binary digit of the coin days. -/
def adjustTarget (cMinHash : Uint256) : ℕ → Uint256 → Uint256
  | 0, cAdjustHash => cAdjustHash
  | turns + 1, cAdjustHash =>
    let doubled := cAdjustHash <<< 1
    if cMinHash < doubled then cMinHash else adjustTarget cMinHash turns doubled

/-- `GetAdjustHash`; the height is not used. -/
def getAdjustHash (cfg : SysCfg) (targetHash : Uint256) (nPos : UInt64) : Uint256 :=
  let ullPosAcc := max (nPos / UInt64.ofInt coin / UInt64.ofInt cfg.nIntervalPos) 1
  adjustTarget cfg.bnProofOfWorkLimit ullPosAcc.toNat.size targetHash

/-! ## What is hashed -/

/-- The bytes `CAccount::GetHash` hashes. -/
def CAccount.hashPreimage (a : CAccount) : Bytes :=
  CRegID.codec.write a.cRegID ++ uint160Codec.write a.cKeyID ++ vchCodec.write a.cPublicKey.vch ++
    vchCodec.write a.cMinerPKey.vch ++ varUInt64.write a.ullValues ++ writeVarInt a.nHeight ++
    varUInt64.write a.ullCoinDay

/-- `ST_PosTxInfo`. -/
structure PosTxInfo where
  nVersion : Int32
  cHashPrevBlock : Uint256
  cHashMerkleRoot : Uint256
  ullValues : UInt64
  unTime : UInt32
  unNonce : UInt32
  unHeight : UInt32
  llFuel : Int64
  nFuelRate : Int32

def PosTxInfo.getHash (Hash : Bytes → Uint256) (t : PosTxInfo) : Uint256 :=
  Hash (Codec.i32.write t.nVersion ++ uint256Codec.write t.cHashPrevBlock ++
    uint256Codec.write t.cHashMerkleRoot ++ Codec.u64.write t.ullValues ++
    Codec.u32.write t.unTime ++ Codec.u32.write t.unNonce ++ Codec.u32.write t.unHeight ++
    Codec.i64.write t.llFuel ++ Codec.i32.write t.nFuelRate)

/-- The record `VerifyPosTx` fills for a block and its miner's account. -/
def CBlock.posTxInfo (Hash : Bytes → Uint256) (b : CBlock) (cAccount : CAccount) : PosTxInfo where
  nVersion := b.nVersion
  cHashPrevBlock := b.cHashPrevBlock
  cHashMerkleRoot := Hash cAccount.hashPreimage
  ullValues := cAccount.ullValues
  unTime := b.unTime
  unNonce := b.unNonce
  unHeight := b.unHeight
  llFuel := CBlockHeader.fuelNarrowed b.llFuel
  nFuelRate := b.nFuelRate

/-! ## Verification -/

namespace CBlock

/-- `GetHeight()` where an `int` is wanted. -/
def height (b : CBlock) : ℤ := b.unHeight.toInt32.toInt

/-- The coinbase.  `vptx[0]` is cast without a check. -/
def rewardTx (b : CBlock) : Exec CRewardTransaction :=
  match b.vptx with
  | .reward tx :: _ => .ok tx
  | _ => Exec.throw "vptx[0] is no CRewardTransaction"

/-- `GetAccountPos` is not zero and the account `IsMiner`. -/
def canMine (cfg : SysCfg) (a : CAccount) (nHeight : ℤ) : Bool :=
  let a := a.upDateCoinDay cfg nHeight
  a.ullCoinDay ≠ 0 && a.isMiner cfg nHeight

/-- One of the account's two keys has signed the block. -/
def minerSigned (cr : Crypto) (b : CBlock) (a : CAccount) : Bool :=
  let h := cr.Hash b.toCBlockHeader.signaturePreimage
  checkSignScript cr h b.vchSignature a.cPublicKey || checkSignScript cr h b.vchSignature a.cMinerPKey

/-- The local validation state of a run keeps what a failing transaction says. -/
def quietly {α : Type} (x : Exec α) : Exec α :=
  match x with
  | .error (.fail _) => Exec.returnFalse
  | x => x

/-- One transaction of the run `VerifyPosTx` may be asked for; views, steps and fuel so far. -/
def posRunTx (node : Node) (b : CBlock) (cache : CTransactionDBCache) (st : Views × UInt64 × Int64)
    (item : CBaseTransaction × ℕ) : Exec (Views × UInt64 × Int64) := do
  let tx := item.1
  Exec.require (¬ cache.isContainTx (tx.getHash node.cr.Hash)) Exec.returnFalse
  let e ← quietly (tx.executeTx node item.2 b.height b.nFuelRate st.1)
  let ullTotalRunStep := st.2.1 + e.ullRunStep
  Exec.require (ullTotalRunStep ≤ maxBlockRunStep) Exec.returnFalse
  let llFuel ← getFuel node.chainActive tx.chTxType e.ullRunStep b.nFuelRate
  return (e.views, ullTotalRunStep, st.2.2 + llFuel.toInt64)

/-- The run and the checks after it; the miner's account as the run leaves it. -/
def posRun (node : Node) (b : CBlock) (reward : CRewardTransaction) (vs : Views)
    (cache : CTransactionDBCache) : Exec CAccount := do
  let (vs, _, llTotalFuel) ← ((b.vptx.drop 1).zipIdx 1).foldlM (b.posRunTx node cache) (vs, 0, 0)
  Exec.require (llTotalFuel = CBlockHeader.fuelNarrowed b.llFuel) Exec.returnFalse
  let cAccount ← Exec.ofOption (vs.view.getAccount node.cr reward.cAccount) Exec.returnFalse
  Exec.require (canMine node.cfg cAccount b.height) Exec.returnFalse
  return cAccount

/-- The miner's account, after the run if there is to be one. -/
def posAccount (node : Node) (b : CBlock) (reward : CRewardTransaction) (vs : Views)
    (cache : CTransactionDBCache) (bNeedRunTx : Bool) (cAccount : CAccount) : Exec CAccount :=
  if bNeedRunTx then b.posRun node reward vs cache else .ok cAccount

/-- The comparison with the target, for the miner's account. -/
def checkPosHash (node : Node) (b : CBlock) (cAccount : CAccount) : Exec Unit := do
  let cAccount := cAccount.upDateCoinDay node.cfg b.height
  Exec.require (cAccount.ullCoinDay ≠ 0) Exec.returnFalse
  let adjusthash := getAdjustHash node.cfg (setCompact b.unBits) cAccount.ullCoinDay
  let cCurHash := (b.posTxInfo node.cr.Hash cAccount).getHash node.cr.Hash
  Exec.require (b.cHashPos = cCurHash) Exec.returnFalse
  Exec.require (cCurHash ≤ adjusthash) Exec.returnFalse

/-- `VerifyPosTx`. -/
def verifyPosTx (node : Node) (b : CBlock) (vs : Views) (cache : CTransactionDBCache)
    (bNeedRunTx : Bool) : Exec Unit := do
  Exec.require (b.unNonce ≤ blockMaxNonce) Exec.returnFalse
  Exec.require (b.cHashMerkleRoot = b.buildMerkleTree node.cr.Hash) Exec.returnFalse
  let prtx ← b.rewardTx
  let cAccount ← Exec.ofOption (vs.view.getAccount node.cr prtx.cAccount) Exec.returnFalse
  Exec.require (b.minerSigned node.cr cAccount) Exec.returnFalse
  Exec.require (¬ (updateTxVersion2Height < b.unHeight.toNat ∧ prtx.nVersion ≠ txVersion2))
    Exec.returnFalse
  let cAccount ← b.posAccount node prtx vs cache bNeedRunTx cAccount
  b.checkPosHash node cAccount

end CBlock

end Dacrs
