import Dacrs.ConnectSpec
import Dacrs.NextWork
import Dacrs.SampleChain

/-!
# Accepted blocks and their rebuilt headers

`AcceptBlock` checks a block against the entry of its parent, and `AddToBlockIndex` makes the block's
own entry.  Three functions build a header again, from the block, from the entry and from the entry
as the database gives it back.  `rebuilt_iff` says for which accepted blocks all three hash to the
block's hash.
-/

open Codec (Bytes)

namespace Dacrs

open ArithUint256 (divide)

/-! ## What a chain of entries answers -/

/-- `nMedianTimeSpan`, `g_sFixedDifficulty`. -/
def medianTimeSpan : ℕ := 11
def fixedDifficulty : UInt32 := 35001

/-- `GetMedianTimePast` -/
def getMedianTimePast (l : PBlockIndex) : ℤ :=
  let sorted := ((l.take medianTimeSpan).map CBlockIndex.getBlockTime).insertionSort fun a b => a ≤ b
  sorted.getD (sorted.length / 2) 0

/-- `IsSuperMajority` -/
def isSuperMajority (nMinVersion : Int32) (l : PBlockIndex) (unRequired unToCheck : ℕ) : Bool :=
  decide (unRequired ≤ (l.take unToCheck).countP fun p => nMinVersion ≤ p.nVersion)

/-- `bNegative` and `bOverflow` of `SetCompact`. -/
def compactRefused (nCompact : UInt32) : Bool :=
  let nSize := nCompact.toNat / 2 ^ 24
  let nWord := nCompact.toNat % 2 ^ 23
  let nWord := if nSize ≤ 3 then nWord / 256 ^ (3 - nSize) else nWord
  decide (nWord ≠ 0) && (decide (nCompact.toNat / 2 ^ 23 % 2 = 1) || decide (34 < nSize) ||
    decide (0xff < nWord ∧ 33 < nSize) || decide (0xffff < nWord ∧ 32 < nSize))

/-- `GetBlockProof`: 2^256 / (target + 1) in 256 bits. -/
def getBlockProof (unBits : UInt32) : Uint256 :=
  let cTarget := setCompact unBits
  if compactRefused unBits ∨ cTarget = 0 then 0
  else BitVec.ofNat 256 ((divide (~~~cTarget).toNat (cTarget + 1).toNat).getD 0) + 1

/-! ## Accepting -/

/-- What else accepting a block rests on. -/
structure AcceptEnv where
  /-- `Checkpoints::CheckBlock` -/
  checkpointOk : ℤ → Uint256 → Bool
  /-- the height of `Checkpoints::GetLastCheckpoint` -/
  lastCheckpoint : Option ℤ
  /-- `CheckBlockProofWorkWithCoinDayEx` -/
  posTxOk : CBlock → PBlockIndex → Bool
  /-- where `FindBlockPos` and `WriteBlockToDisk` put the block -/
  blockPos : CBlock → Option DiskBlockPos
  /-- the files are counted from 0 in an `int` -/
  nFile_bounds : ∀ b pos, blockPos b = some pos → 0 ≤ pos.nFile ∧ pos.nFile < 2 ^ 31
  /-- `m_dFeePerKb`, a `double` -/
  feePerKb : CBlock → UInt64
  /-- `g_ullBlockSequenceId` -/
  sequenceId : UInt32

/-- `g_mapBlockIndex` -/
abbrev BlockMap := Uint256 → Option PBlockIndex

/-- The height of an entry on top of others. -/
def nextHeight (l : PBlockIndex) : ℤ :=
  match l with
  | [] => 0
  | prev :: _ => prev.nHeight + 1

def chainWorkAt (l : PBlockIndex) : Uint256 :=
  match l with
  | [] => 0
  | prev :: _ => prev.cChainWork

section
variable (cfg : SysCfg) (cr : Crypto) (env : AcceptEnv)

/-- The entry that `AddToBlockIndex` makes. -/
def newBlockIndex (b : CBlock) (pPrev : PBlockIndex) (tDiskBlockPos : DiskBlockPos) : CBlockIndex :=
  { CBlockIndex.ofBlock env.feePerKb b with
    hashBlock := b.getHash cr.Hash
    uSequenceId := env.sequenceId
    nHeight := nextHeight pPrev
    unTx := UInt32.ofNat b.vptx.length
    cChainWork := chainWorkAt pPrev + getBlockProof b.unBits
    unChainTx := chainTxAt pPrev + UInt32.ofNat b.vptx.length
    nFile := tDiskBlockPos.nFile
    nDataPos := tDiskBlockPos.unPos
    nUndoPos := 0
    unStatus := blockValidTransactions ||| blockHaveData }

/-- `AddToBlockIndex`, up to `ActivateBestChain`. -/
def addToBlockIndex (mapBlockIndex : BlockMap) (b : CBlock) (tDiskBlockPos : DiskBlockPos) :
    Exec PBlockIndex := do
  Exec.require (mapBlockIndex (b.getHash cr.Hash) = none) (Exec.invalid 0 "duplicate")
  let pPrev := (mapBlockIndex b.cHashPrevBlock).getD []
  Exec.require (nextHeight pPrev < 2 ^ 31) (Exec.throw "int overflow")
  return newBlockIndex cr env b pPrev tDiskBlockPos :: pPrev

/-- The checks of `AcceptBlock` on a block that is not the genesis block. -/
def acceptContext (b : CBlock) (pPrevIndex : PBlockIndex) : Exec Unit := do
  let nHeight := nextHeight pPrevIndex
  Exec.require (nHeight < 2 ^ 31) (Exec.throw "int overflow")
  Exec.require (b.unHeight = UInt32.ofInt nHeight) (Exec.reject "incorrect-height")
  Exec.require (getMedianTimePast pPrevIndex < b.unTime.toNat) (Exec.invalid rejectInvalid "time-too-old")
  Exec.require (env.checkpointOk nHeight (b.getHash cr.Hash))
    (Exec.doS 100 rejectCheckpoint "checkpoint mismatch")
  Exec.require (∀ h ∈ env.lastCheckpoint, h ≤ nHeight) (Exec.doS 100 0 "")
  Exec.require (fixedDifficulty < b.unHeight → some b.unBits = getNextWorkRequired cfg pPrevIndex)
    (Exec.reject "bad-diffbits")
  Exec.require (env.posTxOk b pPrevIndex) (Exec.reject "bad-pos-tx")
  Exec.require (¬ (b.nVersion < 2 ∧ (if cfg.testNet then isSuperMajority 2 pPrevIndex 75 100
    else isSuperMajority 2 pPrevIndex 950 1000))) (Exec.invalid rejectObsolete "bad-version")

/-- The checks of `AcceptBlock` against the parent's entry. -/
def acceptChecks (b : CBlock) (pPrevIndex : PBlockIndex) : Exec Unit :=
  if b.getHash cr.Hash = cfg.cHashGenesisBlock then .ok ()
  else do
    Exec.require (pPrevIndex ≠ []) (Exec.throw "assert(g_mapBlockIndex.count(hashPrevBlock))")
    Exec.require (b.nFuelRate = getElementForBurn cfg pPrevIndex) (Exec.reject "fuelrate-dismatch")
    acceptContext cfg cr env b pPrevIndex

/-- `AcceptBlock`: the block's entry, on top of its parent's. -/
def acceptBlock (mapBlockIndex : BlockMap) (b : CBlock) : Exec PBlockIndex := do
  Exec.require (mapBlockIndex (b.getHash cr.Hash) = none) (Exec.invalid 0 "duplicate")
  acceptChecks cfg cr env b ((mapBlockIndex b.cHashPrevBlock).getD [])
  let tBlockPos ← Exec.ofOption (env.blockPos b) Exec.returnFalse
  addToBlockIndex cr env mapBlockIndex b tBlockPos

end

/-- The maps that accepting block after block leads to. -/
inductive BlockTree (cfg : SysCfg) (cr : Crypto) : BlockMap → Prop
  | empty : BlockTree cfg cr fun _ => none
  | accept {mapBlockIndex : BlockMap} {env : AcceptEnv} {b : CBlock} {l : PBlockIndex}
      (tree : BlockTree cfg cr mapBlockIndex) (ok : acceptBlock cfg cr env mapBlockIndex b = .ok l) :
      BlockTree cfg cr fun h => if h = b.getHash cr.Hash then some l else mapBlockIndex h

/-! ## What an accepted block is -/

/-- Every hash leads to an entry that has it, at a height from 0 on. -/
def IndexSound (mapBlockIndex : BlockMap) : Prop :=
  ∀ h l, mapBlockIndex h = some l → ∃ p rest, l = p :: rest ∧ p.hashBlock = h ∧ 0 ≤ p.nHeight

/-- The block sits where its header says. -/
def Placed (b : CBlock) (pPrev : PBlockIndex) : Prop :=
  b.unHeight = UInt32.ofInt (nextHeight pPrev) ∧ b.cHashPrevBlock = PBlockIndex.hash pPrev

section
variable {cfg : SysCfg} {cr : Crypto} {env : AcceptEnv} {mapBlockIndex : BlockMap} {b : CBlock}
  {l : PBlockIndex}

theorem IndexSound.nextHeight_nonneg (hm : IndexSound mapBlockIndex) (h : Uint256) :
    0 ≤ nextHeight ((mapBlockIndex h).getD []) := by
  cases hp : mapBlockIndex h with
  | none => exact le_refl 0
  | some pPrev =>
    obtain ⟨p, rest, rfl, -, hheight⟩ := hm h pPrev hp
    show 0 ≤ p.nHeight + 1
    omega

theorem addToBlockIndex_ok {pos : DiskBlockPos} (ok : addToBlockIndex cr env mapBlockIndex b pos = .ok l) :
    mapBlockIndex (b.getHash cr.Hash) = none ∧
      nextHeight ((mapBlockIndex b.cHashPrevBlock).getD []) < 2 ^ 31 ∧
      l = newBlockIndex cr env b ((mapBlockIndex b.cHashPrevBlock).getD []) pos ::
        (mapBlockIndex b.cHashPrevBlock).getD [] := by
  rw [addToBlockIndex, Except.bind_eq_ok] at ok
  obtain ⟨_, hnew, ok⟩ := ok
  rw [Except.bind_eq_ok] at ok
  obtain ⟨_, hheight, hl⟩ := ok
  cases hl
  exact ⟨(Exec.require_eq_ok (Exec.fails_error _)).mp hnew,
    (Exec.require_eq_ok (Exec.fails_throw _)).mp hheight, rfl⟩

/-- Past the checks: the genesis block, or a block at the height it claims on top of an entry. -/
theorem acceptChecks_ok {u : Unit} {pPrev : PBlockIndex} (ok : acceptChecks cfg cr env b pPrev = .ok u)
    (hne : b.getHash cr.Hash ≠ cfg.cHashGenesisBlock) :
    pPrev ≠ [] ∧ b.unHeight = UInt32.ofInt (nextHeight pPrev) := by
  rw [acceptChecks, if_neg hne, Except.bind_eq_ok] at ok
  obtain ⟨_, hprev, ok⟩ := ok
  rw [Except.bind_eq_ok] at ok
  obtain ⟨_, _, ok⟩ := ok
  rw [acceptContext, Except.bind_eq_ok] at ok
  obtain ⟨_, _, ok⟩ := ok
  rw [Except.bind_eq_ok] at ok
  obtain ⟨_, hheight, _⟩ := ok
  exact ⟨(Exec.require_eq_ok (Exec.fails_throw _)).mp hprev,
    (Exec.require_eq_ok (Exec.fails_error _)).mp hheight⟩

/-- All that acceptance says. -/
theorem acceptBlock_ok (ok : acceptBlock cfg cr env mapBlockIndex b = .ok l) :
    ∃ pos, env.blockPos b = some pos ∧
      nextHeight ((mapBlockIndex b.cHashPrevBlock).getD []) < 2 ^ 31 ∧
      l = newBlockIndex cr env b ((mapBlockIndex b.cHashPrevBlock).getD []) pos ::
        (mapBlockIndex b.cHashPrevBlock).getD [] ∧
      (b.getHash cr.Hash ≠ cfg.cHashGenesisBlock → (mapBlockIndex b.cHashPrevBlock).getD [] ≠ [] ∧
        b.unHeight = UInt32.ofInt (nextHeight ((mapBlockIndex b.cHashPrevBlock).getD []))) := by
  rw [acceptBlock, Except.bind_eq_ok] at ok
  obtain ⟨_, _, ok⟩ := ok
  rw [Except.bind_eq_ok] at ok
  obtain ⟨_, hchecks, ok⟩ := ok
  rw [Except.bind_eq_ok] at ok
  obtain ⟨pos, hpos, hadd⟩ := ok
  obtain ⟨-, hheight, hl⟩ := addToBlockIndex_ok hadd
  exact ⟨pos, (Exec.ofOption_eq_ok Exec.fails_returnFalse).mp hpos, hheight, hl, acceptChecks_ok hchecks⟩

/-- A new entry under its hash. -/
theorem IndexSound.insert (hm : IndexSound mapBlockIndex) {p : CBlockIndex} (hp : 0 ≤ p.nHeight)
    (pPrev : PBlockIndex) :
    IndexSound fun h => if h = p.hashBlock then some (p :: pPrev) else mapBlockIndex h := by
  intro h l hl
  dsimp only at hl
  by_cases hh : h = p.hashBlock
  · rw [if_pos hh] at hl
    cases hl
    exact ⟨p, pPrev, rfl, hh.symm, hp⟩
  · rw [if_neg hh] at hl
    exact hm h l hl

theorem IndexSound.accept (hm : IndexSound mapBlockIndex)
    (ok : acceptBlock cfg cr env mapBlockIndex b = .ok l) :
    IndexSound fun h => if h = b.getHash cr.Hash then some l else mapBlockIndex h := by
  obtain ⟨pos, -, -, rfl, -⟩ := acceptBlock_ok ok
  exact hm.insert (p := newBlockIndex cr env b ((mapBlockIndex b.cHashPrevBlock).getD []) pos)
    (hm.nextHeight_nonneg _) _

theorem BlockTree.sound (tree : BlockTree cfg cr mapBlockIndex) : IndexSound mapBlockIndex := by
  induction tree with
  | empty =>
    intro h l hl
    cases hl
  | accept _ ok ih => exact ih.accept ok

/-- A block that is not the genesis block is placed where it says. -/
theorem IndexSound.placed (hm : IndexSound mapBlockIndex)
    (hprev : (mapBlockIndex b.cHashPrevBlock).getD [] ≠ [])
    (hheight : b.unHeight = UInt32.ofInt (nextHeight ((mapBlockIndex b.cHashPrevBlock).getD []))) :
    Placed b ((mapBlockIndex b.cHashPrevBlock).getD []) := by
  refine ⟨hheight, ?_⟩
  cases hp : mapBlockIndex b.cHashPrevBlock with
  | none =>
    rw [hp] at hprev
    exact absurd rfl hprev
  | some pPrev =>
    obtain ⟨p, rest, rfl, hhash, -⟩ := hm _ pPrev hp
    exact hhash.symm

end

/-! ## Rebuilding -/

/-- The header hashes to the block's hash, whatever the hash function. -/
def HashesAs (h : CBlockHeader) (b : CBlock) : Prop := ∀ Hash : Bytes → Uint256, h.getHash Hash = b.getHash Hash

/-- The entry as it is at some later time: its status and the place of its undo data move on. -/
def CBlockIndex.later (p : CBlockIndex) (unStatus nUndoPos : UInt32) : CBlockIndex :=
  { p with
    unStatus := unStatus
    nUndoPos := nUndoPos }

/-- The three rebuilt headers of a block with an entry `p` on top of `pPrev`. -/
structure Rebuilt (b : CBlock) (p : CBlockIndex) (pPrev : PBlockIndex) : Prop where
  block : HashesAs b.getBlockHeader b
  entry : HashesAs (p.getBlockHeader pPrev) b
  disk : ∀ unStatus nUndoPos, ∃ d,
    CDiskBlockIndex.unserialize (CDiskBlockIndex.ofIndex (p.later unStatus nUndoPos) pPrev).serialize
      = some (d, []) ∧ ∀ Hash, d.getBlockHash Hash = b.getHash Hash

theorem hashesAs_iff {h : CBlockHeader} {b : CBlock} :
    HashesAs h b ↔ h.hashPreimage = b.toCBlockHeader.hashPreimage := by
  constructor
  · intro hall
    by_contra hne
    have hsplit := hall fun bytes => if bytes = h.hashPreimage then 0 else 1
    simp only [CBlockHeader.getHash] at hsplit
    rw [if_pos trivial, if_neg (Ne.symm hne)] at hsplit
    cases hsplit
  · intro heq Hash
    exact congrArg Hash heq

section
variable {cr : Crypto} {env : AcceptEnv} {b : CBlock} {pPrev : PBlockIndex} {pos : DiskBlockPos}

/-- The entry of a block that is placed where it says records the block. -/
theorem Placed.records (placed : Placed b pPrev) (unStatus nUndoPos : UInt32) :
    ((newBlockIndex cr env b pPrev pos).later unStatus nUndoPos).Records pPrev b where
  nVersion := rfl
  cHashMerkleRoot := rfl
  cHashPos := rfl
  unTime := rfl
  unBits := rfl
  unNonce := rfl
  llFuel := rfl
  nFuelRate := rfl
  vchSignature := rfl
  height := placed.1.symm
  link := by
    cases pPrev with
    | nil => exact placed.2.symm
    | cons prev rest => exact placed.2.symm

/-- A header that the entry rebuilds says where the entry is. -/
theorem placed_of_entry (hentry : HashesAs ((newBlockIndex cr env b pPrev pos).getBlockHeader pPrev) b) :
    Placed b pPrev := by
  have hinj := CBlockHeader.hashPreimage_inj (hashesAs_iff.mp hentry)
  have hheight := congrArg CBlockHeader.unHeight hinj
  have hlink := congrArg CBlockHeader.cHashPrevBlock hinj
  simp only [CBlockIndex.getBlockHeader, CBlockHeader.setHeight_eq] at hheight hlink
  refine ⟨hheight.symm, ?_⟩
  cases pPrev with
  | nil => exact hlink.symm
  | cons prev rest => exact hlink.symm

/-- The entry goes through the database. -/
theorem Placed.disk (placed : Placed b pPrev) (hheight : 0 ≤ nextHeight pPrev ∧ nextHeight pPrev < 2 ^ 31)
    (hfile : 0 ≤ pos.nFile ∧ pos.nFile < 2 ^ 31) (hsig : vchCodec.Fits b.vchSignature)
    (hkept : b.VersionKept) (hfuel : 0 ≤ b.llFuel.toInt ∧ b.llFuel.toInt < 2 ^ 32)
    (unStatus nUndoPos : UInt32) :
    ∃ d, CDiskBlockIndex.unserialize
        (CDiskBlockIndex.ofIndex ((newBlockIndex cr env b pPrev pos).later unStatus nUndoPos) pPrev).serialize
      = some (d, []) ∧ ∀ Hash, d.getBlockHash Hash = b.getHash Hash := by
  have hrecords : ((newBlockIndex cr env b pPrev pos).later unStatus nUndoPos).Records pPrev b :=
    placed.records unStatus nUndoPos
  have hround := CDiskBlockIndex.unserialize_serialize
    (CDiskBlockIndex.ofIndex ((newBlockIndex cr env b pPrev pos).later unStatus nUndoPos) pPrev) []
    hheight hfile hsig
  rw [List.append_nil] at hround
  refine ⟨_, hround, ?_⟩
  exact hashesAs_iff.mpr (hrecords.disk_hashPreimage_iff.mpr ⟨hkept, hfuel⟩)

end

/-- The signature of a block within the size limit fits its length field. -/
theorem vchSignature_fits {b : CBlock} (hsize : b.serialize.length ≤ maxBlockSize) :
    vchCodec.Fits b.vchSignature := by
  have hlen : b.vchSignature.length ≤ (vchCodec.write b.vchSignature).length :=
    Codec.length_le_vecBytes_write maxSize b.vchSignature
  have hmax : maxBlockSize ≤ maxSize := by decide
  simp only [CBlock.serialize, CBlockHeader.serialize, List.length_append] at hsize
  exact vchCodec_fits (by omega)

/-! ## The accepted blocks that keep their hash -/

/-- A header that each of the three copies can carry. -/
def Carried (cfg : SysCfg) (cr : Crypto) (b : CBlock) (pPrev : PBlockIndex) : Prop :=
  b.VersionKept ∧ b.llFuel = 0 ∧ b.nFuelRate = initFuelRates ∧
    (b.getHash cr.Hash = cfg.cHashGenesisBlock → Placed b pPrev)

/-- Of the blocks the node accepts, those keep their hash in all three rebuilt headers whose version
`SetHeight` leaves alone and whose fuel fields have their defaults. -/
theorem rebuilt_iff (node : Node) (env : AcceptEnv) (mapBlockIndex : BlockMap) (b : CBlock)
    (view : CAccountViewCache) (s : CScriptDBViewCache) (bCheckTx bCheckMerkleRoot : Bool)
    (l : PBlockIndex) (tree : BlockTree node.cfg node.cr mapBlockIndex)
    (hcheck : b.checkBlock node view s bCheckTx bCheckMerkleRoot = .ok ())
    (ok : acceptBlock node.cfg node.cr env mapBlockIndex b = .ok l) :
    ∃ p pPrev, l = p :: pPrev ∧ (Rebuilt b p pPrev ↔ Carried node.cfg node.cr b pPrev) := by
  obtain ⟨pos, hpos, hlt, rfl, hplace⟩ := acceptBlock_ok ok
  refine ⟨_, _, rfl, ?_⟩
  have hm := tree.sound
  have hfile := env.nFile_bounds b pos hpos
  have hsig := vchSignature_fits (CBlock.checkBlock_ok hcheck).size
  constructor
  · intro hr
    have hplaced := placed_of_entry hr.entry
    have hkept := (hplaced.records _ _).getBlockHeader_hashPreimage_iff.mp (hashesAs_iff.mp hr.entry)
    exact ⟨hkept.1, hkept.2.1, hkept.2.2, fun _ => hplaced⟩
  · rintro ⟨hversion, hfuel, hrate, hgenesis⟩
    have hplaced : Placed b ((mapBlockIndex b.cHashPrevBlock).getD []) := by
      by_cases hg : b.getHash node.cr.Hash = node.cfg.cHashGenesisBlock
      · exact hgenesis hg
      · exact hm.placed (hplace hg).1 (hplace hg).2
    have hzero : 0 ≤ b.llFuel.toInt ∧ b.llFuel.toInt < 2 ^ 32 := by
      rw [hfuel]
      decide
    exact ⟨hashesAs_iff.mpr (b.getBlockHeader_hashPreimage_iff.mpr hversion),
      hashesAs_iff.mpr ((hplaced.records _ _).getBlockHeader_hashPreimage_iff.mpr ⟨hversion, hfuel, hrate⟩),
      hplaced.disk ⟨hm.nextHeight_nonneg _, hlt⟩ hfile hsig hversion hzero⟩

/-! ## Two blocks over genesis -/

namespace Sample

def acceptEnv : AcceptEnv where
  checkpointOk _ _ := true
  lastCheckpoint := none
  posTxOk _ _ := true
  blockPos _ := some ⟨0, 8⟩
  nFile_bounds _ _ h := by
    cases h
    decide
  feePerKb _ := 0
  sequenceId := 0

/-- The block's entry over the given ones. -/
def acceptedOn (b : CBlock) (pPrev : PBlockIndex) : PBlockIndex :=
  newBlockIndex crypto acceptEnv b pPrev ⟨0, 8⟩ :: pPrev

/-- The index after genesis. -/
def genesisMap : BlockMap := fun h =>
  if h = genesisBlock.getHash crypto.Hash then some (acceptedOn genesisBlock []) else none

theorem genesisMap_tree : BlockTree chainCfg crypto genesisMap :=
  .accept .empty (show acceptBlock chainCfg crypto acceptEnv (fun _ => none) genesisBlock
    = .ok (acceptedOn genesisBlock []) by decide +kernel)

/-- A block whose fuel the index entry does not carry into a header. -/
def fuelBlock : CBlock := firstBlock 7 999999993 []

end Sample

open Sample in
/-- A block without fuel comes back whole. -/
theorem plain_block_rebuilt : ∃ p pPrev,
    acceptedOn (firstBlock 0 1000000000 []) (acceptedOn genesisBlock []) = p :: pPrev ∧
      Rebuilt (firstBlock 0 1000000000 []) p pPrev := by
  obtain ⟨p, pPrev, hl, hiff⟩ := rebuilt_iff (chainNode []) acceptEnv genesisMap
    (firstBlock 0 1000000000 []) Views.empty.view Views.empty.scriptDB true true
    (acceptedOn (firstBlock 0 1000000000 []) (acceptedOn genesisBlock []))
    genesisMap_tree (by decide +kernel) (by decide +kernel)
  have hne : (firstBlock 0 1000000000 []).getHash crypto.Hash ≠ chainCfg.cHashGenesisBlock := by
    decide +kernel
  exact ⟨p, pPrev, hl, hiff.mpr ⟨by decide +kernel, rfl, rfl, fun hg => absurd hg hne⟩⟩

open Sample in
/-- The node accepts a block with fuel, and its index entry makes a header with another hash. -/
theorem fuelBlock_not_rebuilt :
    BlockTree chainCfg crypto genesisMap ∧
    fuelBlock.checkBlock (chainNode []) Views.empty.view Views.empty.scriptDB true true = .ok () ∧
    acceptBlock chainCfg crypto acceptEnv genesisMap fuelBlock
      = .ok (acceptedOn fuelBlock (acceptedOn genesisBlock [])) ∧
    ∃ p pPrev, acceptedOn fuelBlock (acceptedOn genesisBlock []) = p :: pPrev ∧
      (p.getBlockHeader pPrev).getHash crypto.Hash ≠ fuelBlock.getHash crypto.Hash ∧
      ¬ Rebuilt fuelBlock p pPrev := by
  have hne : (CBlockIndex.getBlockHeader (newBlockIndex crypto acceptEnv fuelBlock
      (acceptedOn genesisBlock []) ⟨0, 8⟩) (acceptedOn genesisBlock [])).getHash crypto.Hash
        ≠ fuelBlock.getHash crypto.Hash := by
    decide +kernel
  exact ⟨genesisMap_tree, by decide +kernel, by decide +kernel, _, _, rfl, hne,
    fun hr => hne (hr.entry crypto.Hash)⟩

end Dacrs
