import Dacrs.Pos
import Dacrs.UndoFile

/-!
# Connecting and disconnecting a block

`ConnectBlock` and `DisconnectBlock`.  Connecting executes the transactions after the coinbase,
checks the fuel and the reward, executes the coinbase and pays the coinbase that has matured; the
undo records of all of them, in this order, make the block's undo data.  Then the transaction
index, the undo file, the index entry and the transaction cache are brought up to date.

The two views, the transaction cache and the undo files are passed through.  What a failing call
leaves behind in them is not modelled: the callers drop the views, and the transaction cache
and the files are touched only after the last check that depends on the block.
-/

open Codec (Bytes)

namespace Dacrs

/-- COINBASE_MATURITY, POS_REWARD. -/
def coinbaseMaturity : ℕ := 100
def posReward : Int64 := Int64.ofInt (10 * coin)

/-- BLOCK_VALID_MASK, BLOCK_VALID_SCRIPTS. -/
def blockValidMask : UInt32 := 7
def blockValidScripts : UInt32 := 5

/-! ## Positions in files -/

/-- `ST_DiskBlockPos`. -/
structure DiskBlockPos where
  nFile : ℤ
  unPos : UInt32
deriving DecidableEq, Inhabited

namespace DiskBlockPos

def null : DiskBlockPos := ⟨-1, 0⟩

def isNull (p : DiskBlockPos) : Bool := p.nFile == -1

end DiskBlockPos

/-- The undo files: the record at each position that was written to. -/
abbrev UndoFiles := Store (ℤ × UInt32) Bytes

namespace CBlockIndex

def getBlockPos (p : CBlockIndex) : DiskBlockPos :=
  if p.unStatus &&& blockHaveData ≠ 0 then ⟨p.nFile, p.nDataPos⟩ else .null

def getUndoPos (p : CBlockIndex) : DiskBlockPos :=
  if p.unStatus &&& blockHaveUndo ≠ 0 then ⟨p.nFile, p.nUndoPos⟩ else .null

end CBlockIndex

/-- A serialized `ST_DiskTxPos`. -/
def writeDiskTxPos (p : DiskBlockPos) (unTxOffset : UInt32) : Bytes :=
  writeVarInt p.nFile ++ varUInt32.write p.unPos ++ varUInt32.write unTxOffset

/-- A block after a block: the hash a block's predecessor has in its index entry. -/
def PBlockIndex.hash (p : PBlockIndex) : Uint256 :=
  match p with
  | [] => 0
  | q :: _ => q.hashBlock

namespace CBlock

/-! ## Transactions after the coinbase -/

/-- What the loop of `ConnectBlock` carries. -/
structure TxsRun where
  views : Views
  ullTotalRunStep : UInt64
  llTotalFuel : Int64
  vcTxUndo : List CTxUndo

/-- The height of the best block; the entry must be in `g_mapBlockIndex`. -/
def bestHeight (node : Node) (vs : Views) : Exec ℤ :=
  match node.mapBlockIndex vs.view.cHashBlock with
  | some (q :: _) => .ok q.nHeight
  | _ => Exec.throw "assert(g_mapBlockIndex.count(cAccountViewCache.GetBestBlock()))"

/-- One turn of the loop. -/
def connectTx (node : Node) (b : CBlock) (nHeight : ℤ) (cache : CTransactionDBCache) (st : TxsRun)
    (item : CBaseTransaction × ℕ) : Exec TxsRun := do
  let tx := item.1
  Exec.require (¬ cache.isContainTx (tx.getHash node.cr.Hash)) (Exec.reject "bad-cb-amount")
  let best ← bestHeight node st.views
  Exec.require (tx.isValidHeight best node.cfg.nTxCacheHeight) (Exec.reject "tx-invalid-height")
  let e ← tx.executeTx node item.2 nHeight b.nFuelRate st.views
  let ullTotalRunStep := st.ullTotalRunStep + e.ullRunStep
  Exec.require (ullTotalRunStep ≤ maxBlockRunStep) (Exec.reject "exeed-max_step")
  let llFuel ← getFuel node.chainActive tx.chTxType e.ullRunStep b.nFuelRate
  return ⟨e.views, ullTotalRunStep, st.llTotalFuel + llFuel.toInt64, st.vcTxUndo ++ [e.undo]⟩

/-- The transactions after the coinbase, with their places in the block. -/
def otherTxs (b : CBlock) : List (CBaseTransaction × ℕ) := (b.vptx.drop 1).zipIdx 1

/-- The loop, and the comparison with the header's fuel, which only a block with more than one
transaction makes. -/
def connectTxs (node : Node) (b : CBlock) (nHeight : ℤ) (cache : CTransactionDBCache) (vs : Views) :
    Exec TxsRun := do
  let st ← b.otherTxs.foldlM (b.connectTx node nHeight cache) ⟨vs, 0, 0, []⟩
  Exec.require (b.vptx.length ≤ 1 ∨ st.llTotalFuel = CBlockHeader.fuelNarrowed b.llFuel)
    Exec.returnFalse
  return st

/-! ## The coinbase -/

/-- `llValidReward`. -/
def validReward (b : CBlock) : UInt64 :=
  (b.getFee - CBlockHeader.fuelNarrowed b.llFuel + posReward).toUInt64

/-- An account that is known must be able to mine. -/
def checkMiner (node : Node) (nHeight : ℤ) (vs : Views) (rewardTx : CRewardTransaction) : Exec Unit :=
  match vs.view.getAccount node.cr rewardTx.cAccount with
  | none => .ok ()
  | some a => Exec.require (canMine node.cfg a nHeight) (Exec.reject "bad-coinday-miner")

/-- Proof of stake, the reward, and the coinbase's own execution. -/
def connectReward (node : Node) (b : CBlock) (nHeight : ℤ) (cache : CTransactionDBCache)
    (vs : Views) : Exec Executed := do
  (b.verifyPosTx node vs cache false).onFalse (.doS 100 rejectInvalid "bad-tDiskTxPos-tx" false)
  let rewardTx ← b.rewardTx
  checkMiner node nHeight vs rewardTx
  Exec.require (rewardTx.ullRewardValue = b.validReward) (Exec.reject "bad-cb-amount")
  (CBaseTransaction.reward rewardTx).executeTx node 0 nHeight 0 vs

/-- The entry COINBASE_MATURITY blocks back; following a null pointer ends the program. -/
def matureIndex (p : PBlockIndex) : Exec PBlockIndex :=
  if p.length < coinbaseMaturity then Exec.throw "pMatureIndex is NULL"
  else .ok (p.drop coinbaseMaturity)

/-- `vptx[0]`. -/
def firstTx (b : CBlock) : Exec CBaseTransaction :=
  Exec.ofOption b.vptx.head? (Exec.throw "vptx is empty")

/-- The coinbase that has matured is paid.  Without one the record of the coinbase before is pushed
a second time. -/
def connectMature (node : Node) (p : PBlockIndex) (nHeight : ℤ) (e : Executed) :
    Exec (Views × List CTxUndo) :=
  if 0 < nHeight - coinbaseMaturity then do
    match ← matureIndex p with
    | [] => return (e.views, [e.undo])
    | q :: _ =>
      let cMatureBlock ← Exec.ofOption (node.readBlockFromDisk q) (Exec.reject "bad-read-block")
      let tx ← cMatureBlock.firstTx
      let e ← tx.executeTx node (-1) nHeight 0 e.views
      return (e.views, [e.undo])
  else .ok (e.views, [])

/-- Everything a block does to the two views, and its undo records. -/
def connectViews (node : Node) (b : CBlock) (vs : Views) (p : PBlockIndex) (nHeight : ℤ)
    (cache : CTransactionDBCache) : Exec (Views × CBlockUndo) := do
  let st ← b.connectTxs node nHeight cache vs
  let e ← b.connectReward node nHeight cache st.views
  let (vs, matured) ← connectMature node p nHeight e
  return (vs, st.vcTxUndo ++ e.undo :: matured)

/-! ## The transaction index -/

/-- Where the transactions of a block lie: one entry for each, the offset counted from the end
of the header. -/
def txPositions (Hash : Bytes → Uint256) (pos : DiskBlockPos) :
    UInt32 → List CBaseTransaction → List (Bytes × Bytes)
  | _, [] => []
  | offset, tx :: rest =>
    (CScriptDBViewCache.txIndexKey (tx.getHash Hash), writeDiskTxPos pos offset) ::
      txPositions Hash pos (offset + UInt32.ofNat tx.serializePtr.length) rest

/-- `WriteTxIndex`. -/
def writeTxIndex (s : CScriptDBViewCache) (vPos : List (Bytes × Bytes)) :
    CScriptDBViewCache × List CScriptDBOperLog :=
  vPos.foldl (fun st item =>
    let (s, log) := st.1.setDataLogged item.1 item.2
    (s, st.2 ++ [log])) (s, [])

/-- The index logs go to the front of the last record's logs. -/
def indexUndo (logs : List CScriptDBOperLog) : CBlockUndo → CBlockUndo
  | [] => []
  | [undo] => [{ undo with vcScriptOperLog := logs ++ undo.vcScriptOperLog }]
  | undo :: rest => undo :: indexUndo logs rest

/-- The transaction index of a block, when it is kept. -/
def connectIndex (node : Node) (b : CBlock) (pIndex : CBlockIndex) (vs : Views) (undo : CBlockUndo) :
    Views × CBlockUndo :=
  if node.cfg.bTxIndex then
    let vPos := txPositions node.cr.Hash pIndex.getBlockPos
      (UInt32.ofNat (Codec.writeCompactSize b.vptx.length).length) b.vptx
    let (s, logs) := writeTxIndex vs.scriptDB vPos
    (⟨vs.view, s⟩, indexUndo logs undo)
  else (vs, undo)

/-! ## Undo data and index entry -/

/-- A place is found for the undo data and they are written there.  The record lies behind the
eight bytes of its header. -/
def writeNewUndo (node : Node) (pIndex : CBlockIndex) (pPrev : PBlockIndex) (undo : CBlockUndo)
    (files : UndoFiles) : Exec (CBlockIndex × UndoFiles) :=
  match pPrev with
  | [] => Exec.throw "m_pPrevBlockIndex is NULL"
  | prev :: _ =>
    match node.writes.findUndoPos pIndex.nFile ((CBlockUndo.codec.write undo).length + 40) with
    | .error reason => Exec.abort reason
    | .ok pos => do
      let unPos := pos + 8
      let record := undo.record node.cr.Hash prev.hashBlock
      Exec.require (node.writes.writeUndo (pIndex.nFile, unPos) record)
        (Exec.abort "Failed to write undo data")
      return ({ pIndex with nUndoPos := unPos, unStatus := pIndex.unStatus ||| blockHaveUndo },
        files.put (pIndex.nFile, unPos) (some record))

/-- Undo data that are there already stay as they are. -/
def writeUndo (node : Node) (pIndex : CBlockIndex) (pPrev : PBlockIndex) (undo : CBlockUndo)
    (files : UndoFiles) : Exec (CBlockIndex × UndoFiles) :=
  if pIndex.getUndoPos.isNull then writeNewUndo node pIndex pPrev undo files
  else .ok (pIndex, files)

/-- The undo data, and the entry marked as fully valid. -/
def connectEntry (node : Node) (pIndex : CBlockIndex) (pPrev : PBlockIndex) (undo : CBlockUndo)
    (files : UndoFiles) : Exec (CBlockIndex × UndoFiles) :=
  if pIndex.getUndoPos.isNull ∨ pIndex.unStatus &&& blockValidMask < blockValidScripts then do
    let (pIndex, files) ← writeUndo node pIndex pPrev undo files
    let pIndex := { pIndex with
      unStatus := (pIndex.unStatus &&& ~~~ blockValidMask) ||| blockValidScripts }
    Exec.require (node.writes.writeBlockIndex (CDiskBlockIndex.ofIndex pIndex pPrev))
      (Exec.abort "Failed to write block index")
    return (pIndex, files)
  else .ok (pIndex, files)

/-! ## The transaction cache -/

/-- The block that enters or leaves the cache with the block at `nHeight`. -/
def cacheLimitBlock (node : Node) (chain : PBlockIndex) (nHeight : ℤ) : Exec CBlock := do
  let q ← Exec.ofOption (chainAt chain (nHeight - node.cfg.nTxCacheHeight))
    (Exec.throw "cTempChain[..] is NULL")
  Exec.ofOption (node.readBlockFromDisk q) (Exec.abort "Failed to read block")

def connectCache (node : Node) (b : CBlock) (p : PBlockIndex) (nHeight : ℤ)
    (cache : CTransactionDBCache) : Exec CTransactionDBCache :=
  let cache := cache.addBlockToCache node.cr.Hash b
  if 0 < nHeight - node.cfg.nTxCacheHeight then do
    let cDeleteBlock ← cacheLimitBlock node p nHeight
    Exec.ofOption (cache.deleteBlockFromCache node.cr.Hash cDeleteBlock)
      (Exec.abort "Connect tip block failed delete block tx to txcache")
  else .ok cache

/-! ## ConnectBlock -/

/-- What a connected block leaves behind. -/
structure Connected where
  views : Views
  cTxCache : CTransactionDBCache
  cUndoBlock : CBlockUndo
  pBlockIndex : CBlockIndex
  files : UndoFiles

/-- The genesis block: its coinbases become registered accounts. -/
def connectGenesisTx (node : Node) (nHeight : ℤ) (v : CAccountViewCache)
    (item : CBaseTransaction × ℕ) : Exec CAccountViewCache :=
  match item.1 with
  | .reward tx => match tx.cAccount with
    | .pubKey cPubKey =>
      let cAccountId := CRegID.ofPosition nHeight item.2
      let keyId := cPubKey.getKeyID node.cr
      .ok (v.saveAccountInfo cAccountId keyId { CAccount.null with
        cKeyID := keyId, cRegID := cAccountId, cPublicKey := cPubKey,
        ullValues := tx.ullRewardValue })
    | _ => Exec.throw "boost::bad_get"
  | _ => Exec.throw "pRewardTx is NULL"

/-- Steps after the views are up to date. -/
def connectRecords (node : Node) (b : CBlock) (pIndex : CBlockIndex) (pPrev : PBlockIndex)
    (cache : CTransactionDBCache) (files : UndoFiles) (vs : Views) (undo : CBlockUndo) :
    Exec Connected := do
  let (vs, undo) := b.connectIndex node pIndex vs undo
  let (pIndex', files) ← connectEntry node pIndex pPrev undo files
  let cache ← b.connectCache node (pIndex :: pPrev) pIndex.nHeight cache
  return ⟨⟨vs.view.setBestBlock pIndex.hashBlock, vs.scriptDB⟩, cache, undo, pIndex', files⟩

/-- `ConnectBlock`. -/
def connectBlock (node : Node) (b : CBlock) (vs : Views) (p : PBlockIndex)
    (cache : CTransactionDBCache) (files : UndoFiles) (bJustCheck : Bool) : Exec Connected := do
  b.checkBlock node vs.view vs.scriptDB (!bJustCheck) (!bJustCheck)
  match p with
  | [] => Exec.throw "pBlockIndex is NULL"
  | pIndex :: pPrev =>
    Exec.require (bJustCheck ∨ PBlockIndex.hash pPrev = vs.view.cHashBlock)
      (Exec.throw "assert(cHashPrevBlock == cAccountViewCache.GetBestBlock())")
    if b.getHash node.cr.Hash = node.cfg.cHashGenesisBlock then
      let v ← b.vptx.zipIdx.foldlM (connectGenesisTx node pIndex.nHeight)
        (vs.view.setBestBlock pIndex.hashBlock)
      return ⟨⟨v, vs.scriptDB⟩, cache, [], pIndex, files⟩
    else
      let (vs, undo) ← b.connectViews node vs p pIndex.nHeight cache
      if bJustCheck then return ⟨vs, cache, undo, pIndex, files⟩
      else b.connectRecords node pIndex pPrev cache files vs undo

/-! ## DisconnectBlock -/

/-- The undo data a block left in its undo file. -/
def readUndo (node : Node) (b : CBlock) (pIndex : CBlockIndex) (pPrev : PBlockIndex)
    (files : UndoFiles) : Exec CBlockUndo := do
  let pos := pIndex.getUndoPos
  Exec.require (¬ pos.isNull) Exec.returnFalse
  match pPrev with
  | [] => Exec.throw "m_pPrevBlockIndex is NULL"
  | prev :: _ =>
    let file ← Exec.ofOption (files.lookup (pos.nFile, pos.unPos)) Exec.returnFalse
    let undo ← Exec.ofOption (CBlockUndo.readFromDisk node.cr.Hash prev.hashBlock file)
      Exec.returnFalse
    Exec.require (undo.length = b.vptx.length ∨ undo.length = b.vptx.length + 1) Exec.returnFalse
    return undo

/-- `m_vcTxUndo.back()`. -/
def lastUndo (undo : CBlockUndo) : Exec CTxUndo :=
  Exec.ofOption undo.getLast? (Exec.throw "m_vcTxUndo is empty")

/-- The matured coinbase is taken back, its record dropped. -/
def disconnectMature (node : Node) (p : PBlockIndex) (nHeight : ℤ) (vs : Views) (undo : CBlockUndo) :
    Exec (Views × CBlockUndo) :=
  if 0 < nHeight - coinbaseMaturity then do
    let cTxUndo ← lastUndo undo
    match ← matureIndex p with
    | [] => return (vs, undo.dropLast)
    | q :: _ =>
      let matureBlock ← Exec.ofOption (node.readBlockFromDisk q) (Exec.reject "bad-read-block")
      let tx ← matureBlock.firstTx
      let vs ← tx.undoExecuteTx node (-1) nHeight vs cTxUndo
      return (vs, undo.dropLast)
  else .ok (vs, undo)

/-- One turn of the loop over the other transactions, from the last one down. -/
def disconnectTx (node : Node) (nHeight : ℤ) (vs : Views)
    (item : (CBaseTransaction × ℕ) × CTxUndo) : Exec Views :=
  item.1.1.undoExecuteTx node item.1.2 nHeight vs item.2

/-- Everything a disconnected block does to the two views. -/
def disconnectViews (node : Node) (b : CBlock) (vs : Views) (p : PBlockIndex) (nHeight : ℤ)
    (undo : CBlockUndo) : Exec Views := do
  let (vs, undo) ← disconnectMature node p nHeight vs undo
  let tx ← b.firstTx
  let cTxUndo ← lastUndo undo
  let vs ← tx.undoExecuteTx node 0 nHeight vs cTxUndo
  (b.otherTxs.zip undo).reverse.foldlM (disconnectTx node nHeight) vs

def disconnectCache (node : Node) (b : CBlock) (pPrev : PBlockIndex) (nHeight : ℤ)
    (cache : CTransactionDBCache) : Exec CTransactionDBCache := do
  let cache ← Exec.ofOption (cache.deleteBlockFromCache node.cr.Hash b)
    (Exec.abort "Disconnect tip block failed to delete tx from txcache")
  if 0 < nHeight - node.cfg.nTxCacheHeight then do
    let cReLoadblock ← cacheLimitBlock node pPrev nHeight
    return cache.addBlockToCache node.cr.Hash cReLoadblock
  else return cache

/-- `DisconnectBlock`. -/
def disconnectBlock (node : Node) (b : CBlock) (vs : Views) (p : PBlockIndex)
    (cache : CTransactionDBCache) (files : UndoFiles) : Exec (Views × CTransactionDBCache) :=
  match p with
  | [] => Exec.throw "pBlockIndex is NULL"
  | pIndex :: pPrev => do
    Exec.require (pIndex.hashBlock = vs.view.cHashBlock)
      (Exec.throw "assert(pBlockIndex->GetBlockHash() == cAccountViewCache.GetBestBlock())")
    let undo ← readUndo node b pIndex pPrev files
    let vs ← b.disconnectViews node vs p pIndex.nHeight undo
    let cache ← b.disconnectCache node pPrev pIndex.nHeight cache
    return (⟨vs.view.setBestBlock (PBlockIndex.hash pPrev), vs.scriptDB⟩, cache)

end CBlock

end Dacrs
