import Dacrs.ActiveChain

/-!
# A small chain to evaluate on

Blocks over the stand-ins of `Sample`, with a real proof of stake: `mine` fills in what `VerifyPosTx`
compares.  A node that knows a list of distinct blocks serves it (`chainNode_serves`).
-/

open Codec (Bytes)

namespace Dacrs.Sample

/-! ## Blocks -/

/-- Two holders; the second one can mine. -/
def genesisBlock : CBlock :=
  let b : CBlock := { CBlockHeader.null with
    vptx := [.reward ⟨1, .pubKey (pubKey 5), 100000000000, 0⟩,
      .reward ⟨1, .pubKey (pubKey 6), 100000003599, 0⟩] }
  { b with cHashMerkleRoot := b.buildMerkleTree crypto.Hash }

def chainCfg : SysCfg := { cfg with cHashGenesisBlock := genesisBlock.getHash crypto.Hash }

/-- The second holder, as genesis registers him. -/
def miner : CAccount :=
  { CAccount.null with
    cKeyID := keyId 6
    cRegID := ⟨0, 1⟩
    cPublicKey := pubKey 6
    ullValues := 100000003599 }

/-- A signed transaction's signature. -/
def sign (tx : CBaseTransaction) (n : UInt8) : Bytes :=
  uint256Codec.write (tx.signatureHash crypto.Hash) ++ (pubKey n).vch

/-- The header is completed for a miner's account, and signed. -/
def mine (h : CBlockHeader) (miner : CAccount) (vptx : List CBaseTransaction) : CBlock :=
  let b : CBlock := { h with vptx }
  let b := { b with cHashMerkleRoot := b.buildMerkleTree crypto.Hash }
  let b := { b with cHashPos := (b.posTxInfo crypto.Hash miner).getHash crypto.Hash }
  { b with vchSignature := uint256Codec.write (crypto.Hash b.toCBlockHeader.signaturePreimage) ++
      miner.cPublicKey.vch }

/-- A header for the first block after genesis. -/
def firstHeader (llFuel : Int64) : CBlockHeader :=
  { CBlockHeader.null with
    nVersion := 2
    cHashPrevBlock := genesisBlock.getHash crypto.Hash
    unTime := 60
    unBits := 0x20007fff
    unHeight := 1
    llFuel
    nFuelRate := 100 }

/-- The first block after genesis, with a reward and the given transactions. -/
def firstBlock (llFuel : Int64) (ullRewardValue : UInt64) (txs : List CBaseTransaction) : CBlock :=
  mine (firstHeader llFuel) (miner.upDateCoinDay cfg 1)
    (.reward ⟨2, .regID ⟨0, 1⟩, ullRewardValue, 1⟩ :: txs)

/-- Five coins for a key without an account. -/
def fundingTx : CBaseTransaction :=
  let tx : CTransaction := ⟨.common, 2, 1, .regID ⟨0, 0⟩, .keyID (keyId 7), 10000, 500000000, [], []⟩
  .transaction { tx with vchSignature := sign (.transaction tx) 5 }

/-- The key registers. -/
def registerTx : CBaseTransaction :=
  let tx : CRegisterAccountTx := ⟨2, 1, .pubKey (pubKey 7), .null, 10000, []⟩
  .registerAccount { tx with vchSignature := sign (.registerAccount tx) 7 }

/-- A block that registers an account. -/
def registerBlock : CBlock := firstBlock 0 1000020000 [fundingTx, registerTx]

/-- A block that only funds the key. -/
def fundBlock : CBlock :=
  mine { firstHeader 0 with unTime := 7620 } (miner.upDateCoinDay cfg 1)
    [.reward ⟨2, .regID ⟨0, 1⟩, 1000010000, 1⟩, fundingTx]

/-- The next block registers it. -/
def registerLaterBlock : CBlock :=
  mine { CBlockHeader.null with
      nVersion := 2
      cHashPrevBlock := fundBlock.getHash crypto.Hash
      unTime := 60000
      unBits := 0x20007fff
      unHeight := 2
      nFuelRate := 100 }
    ((miner.clearAccPos cfg 1).upDateCoinDay cfg 2)
    [.reward ⟨2, .regID ⟨0, 1⟩, 1000010000, 2⟩, registerTx]

/-! ## Entries and nodes -/

def entryOf (b : CBlock) : CBlockIndex where
  hashBlock := b.getHash crypto.Hash
  nHeight := b.height
  nFile := 0
  nDataPos := 8
  nUndoPos := 0
  cChainWork := 0
  unTx := b.vptx.length.toUInt32
  unChainTx := 0
  unStatus := blockHaveData
  ullBlockfee := b.getFee.toUInt64
  nVersion := b.nVersion
  cHashMerkleRoot := b.cHashMerkleRoot
  cHashPos := b.cHashPos
  unTime := b.unTime
  unBits := b.unBits
  unNonce := b.unNonce
  llFuel := b.llFuel
  nFuelRate := b.nFuelRate
  vchSignature := b.vchSignature
  dFeePerKb := 0
  uSequenceId := 0

/-- A node that has the given blocks on disk and the given chain in its index. -/
def chainNode (blocks : List (CBlockIndex × CBlock)) : Node :=
  { nodeOn ⟨fun q => (blocks.map Prod.snd).find? fun b => b.getHash crypto.Hash == q.hashBlock,
      fun _ => none⟩ (blocks.map Prod.fst) with
    cfg := chainCfg }

def withEntry (b : CBlock) : CBlockIndex × CBlock := (entryOf b, b)

/-- Genesis connected. -/
def genesisRun : Exec CBlock.Connected :=
  genesisBlock.connectBlock (chainNode [withEntry genesisBlock]) .empty [entryOf genesisBlock] .empty ∅
    false

/-- Another block connected on top. -/
def firstRun (b : CBlock) : Exec CBlock.Connected := do
  let g ← genesisRun
  b.connectBlock (chainNode [withEntry b, withEntry genesisBlock]) g.views
    [entryOf b, entryOf genesisBlock] g.cTxCache g.files false

/-- A second block connected on top of that. -/
def secondRun (b c : CBlock) (out : CBlock.Connected) : Exec CBlock.Connected :=
  c.connectBlock (chainNode [withEntry c, (out.pBlockIndex, b), withEntry genesisBlock]) out.views
    [entryOf c, out.pBlockIndex, entryOf genesisBlock] out.cTxCache out.files false

/-- The second block connected and disconnected. -/
def undoRun (b c : CBlock) : Exec (Views × CTransactionDBCache) := do
  let out ← firstRun b
  let top ← secondRun b c out
  c.disconnectBlock (chainNode [(top.pBlockIndex, c), (out.pBlockIndex, b), withEntry genesisBlock])
    top.views [top.pBlockIndex, out.pBlockIndex, entryOf genesisBlock] top.cTxCache top.files

/-! ## Serving a chain -/

/-- The tails of a chain are found under their hashes. -/
theorem mapBlockIndex_of_nodup {blocks : List (CBlockIndex × CBlock)}
    (hnodup : (blocks.map fun e => e.1.hashBlock).Nodup) {e : CBlockIndex × CBlock}
    {rest : List (CBlockIndex × CBlock)} (h : e :: rest <:+ blocks) :
    (chainNode blocks).mapBlockIndex e.1.hashBlock = some ((e :: rest).map Prod.fst) := by
  show ((blocks.map Prod.fst).tails.find? fun l =>
    (l.head?.map CBlockIndex.hashBlock) == some e.1.hashBlock) = _
  induction blocks with
  | nil =>
    have hnil := List.eq_nil_of_suffix_nil h
    cases hnil
  | cons a blocks ih =>
    rw [List.map_cons, List.nodup_cons] at hnodup
    rw [List.map_cons, List.tails_cons, List.find?_cons]
    rcases List.suffix_cons_iff.mp h with heq | hsuffix
    · obtain ⟨rfl, rfl⟩ := List.cons.inj heq
      simp
    · have hne : a.1.hashBlock ≠ e.1.hashBlock := by
        intro heq
        apply hnodup.1
        rw [heq]
        exact List.mem_map_of_mem (hsuffix.subset List.mem_cons_self)
      have hno : (((a.1 :: blocks.map Prod.fst).head?.map CBlockIndex.hashBlock)
          == some e.1.hashBlock) = false := by
        simp [hne]
      rw [hno]
      exact ih hnodup.2 hsuffix

/-- What is read depends on the blocks, not on their entries. -/
theorem chainNode_read {l m : List (CBlockIndex × CBlock)} (h : l.map Prod.snd = m.map Prod.snd)
    (q : CBlockIndex) : (chainNode l).readBlockFromDisk q = (chainNode m).readBlockFromDisk q := by
  unfold Node.readBlockFromDisk chainNode
  dsimp only
  rw [h]
  rfl

/-- A node that knows a list of distinct blocks serves it. -/
theorem chainNode_serves {blocks : List (CBlockIndex × CBlock)}
    (hhash : ∀ e ∈ blocks, e.2.getHash crypto.Hash = e.1.hashBlock ∧ e.1.hashBlock ≠ 0)
    (hnodup : (blocks.map fun e => e.1.hashBlock).Nodup)
    (hreread : ∀ e ∈ blocks, ∀ tx ∈ e.2.vptx, tx.Reread) :
    (chainNode blocks).Serves chainCfg crypto blocks where
  cfg := rfl
  cr := rfl
  index e rest h :=
    ⟨(hhash e (h.subset List.mem_cons_self)).2, mapBlockIndex_of_nodup hnodup h⟩
  disk e he c hc := by
    have hdisk : c ∈ blocks.map Prod.snd := by
      have hfind := (Option.filter_eq_some_iff.mp hc).1
      exact List.mem_of_find?_eq_some hfind
    obtain ⟨e', he', rfl⟩ := List.mem_map.mp hdisk
    have hsame : e'.1.hashBlock = e.1.hashBlock := by
      rw [← (hhash e' he').1]
      exact Node.getHash_of_read hc
    rw [List.inj_on_of_nodup_map hnodup he' he hsame]
  reread q c hc := by
    have hfind := (Option.filter_eq_some_iff.mp hc).1
    obtain ⟨e, he, rfl⟩ := List.mem_map.mp (List.mem_of_find?_eq_some hfind)
    exact hreread e he

end Dacrs.Sample
