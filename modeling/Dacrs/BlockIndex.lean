import Dacrs.Block

/-!
# Index entries

`CBlockIndex` is the in-memory record of a block, `CDiskBlockIndex` its form in the
block-tree database.  Both can rebuild the block's header; three hand-written copies
of the header fields are involved (`CBlock.getBlockHeader`, `CBlockIndex.getBlockHeader`,
`CDiskBlockIndex.getBlockHeader`).  `CDiskBlockIndex.unserialize_serialize` is the
round trip through the database, and the `_hashPreimage_iff` lemmas say for each copy
exactly which headers keep their hashed bytes.
-/

open Codec (Bytes Reader)

namespace Dacrs

/-- Bits of `m_unStatus`. -/
def blockValidTransactions : UInt32 := 3
def blockHaveData : UInt32 := 8
def blockHaveUndo : UInt32 := 16
def blockFailedValid : UInt32 := 32
def blockFailedChild : UInt32 := 64
def blockFailedMask : UInt32 := 96

/-- `g_sClientVersion`. -/
def clientVersion : ℤ := 1010207

structure CBlockIndex where
  /-- `*m_pHashBlock`, the key of the entry in `g_mapBlockIndex` -/
  hashBlock : Uint256
  nHeight : ℤ
  nFile : ℤ
  nDataPos : UInt32
  nUndoPos : UInt32
  cChainWork : Uint256
  unTx : UInt32
  unChainTx : UInt32
  unStatus : UInt32
  ullBlockfee : UInt64
  nVersion : Int32
  cHashMerkleRoot : Uint256
  cHashPos : Uint256
  unTime : UInt32
  unBits : UInt32
  unNonce : UInt32
  llFuel : Int64
  nFuelRate : Int32
  vchSignature : Bytes
  /-- the eight bytes of the `double` -/
  dFeePerKb : UInt64
  uSequenceId : UInt32
deriving DecidableEq, Inhabited

/-- A `CBlockIndex *`: the entry and the entries its `m_pPrevBlockIndex` chain runs
through, down to genesis; `[]` is `NULL`. -/
abbrev PBlockIndex := List CBlockIndex

namespace CBlockIndex

/-- `CBlockIndex(CBlock &)`; `feePerKb` is the floating-point quotient. -/
def ofBlock (feePerKb : CBlock → UInt64) (b : CBlock) : CBlockIndex where
  hashBlock := 0
  nHeight := 0
  nFile := 0
  nDataPos := 0
  nUndoPos := 0
  cChainWork := 0
  unTx := 0
  unChainTx := 0
  unStatus := 0
  ullBlockfee := b.getFee.toUInt64
  nVersion := b.nVersion
  cHashMerkleRoot := b.cHashMerkleRoot
  cHashPos := b.cHashPos
  unTime := b.unTime
  unBits := b.unBits
  unNonce := b.unNonce
  llFuel := CBlockHeader.fuelNarrowed b.llFuel
  nFuelRate := b.nFuelRate
  vchSignature := b.vchSignature
  dFeePerKb := feePerKb b
  uSequenceId := 0

/-- `CBlockIndex::GetBlockHeader`: no `SetFuel`, no `SetFuelRate`. -/
def getBlockHeader (p : CBlockIndex) (pPrev : PBlockIndex) : CBlockHeader :=
  let h := { CBlockHeader.null with nVersion := p.nVersion }
  let h := match pPrev with
    | [] => h
    | prev :: _ => { h with cHashPrevBlock := prev.hashBlock }
  let h := { h with
    cHashMerkleRoot := p.cHashMerkleRoot
    cHashPos := p.cHashPos
    unTime := p.unTime
    unBits := p.unBits
    unNonce := p.unNonce }
  let h := h.setHeight (UInt32.ofInt p.nHeight)
  { h with vchSignature := p.vchSignature }

end CBlockIndex

/-! ## The database form -/

structure CDiskBlockIndex extends CBlockIndex where
  cHashPrev : Uint256
deriving DecidableEq, Inhabited

namespace CDiskBlockIndex

/-- `CDiskBlockIndex(CBlockIndex *)`. -/
def ofIndex (p : CBlockIndex) (pPrev : PBlockIndex) : CDiskBlockIndex :=
  { p with
    cHashPrev := match pPrev with
      | [] => 0
      | prev :: _ => prev.hashBlock }

/-- The fields written, in the order of `IMPLEMENT_SERIALIZE`; the file positions
depend on the status just written. -/
def serialize (d : CDiskBlockIndex) : Bytes :=
  varInt32.write clientVersion ++ (Codec.u64.write d.ullBlockfee ++ (varInt32.write d.nHeight ++
    (varUInt32.write d.unStatus ++ (varUInt32.write d.unTx ++
    (varInt32.writeIf (d.unStatus &&& (blockHaveData ||| blockHaveUndo) ≠ 0) d.nFile ++
    (varUInt32.writeIf (d.unStatus &&& blockHaveData ≠ 0) d.nDataPos ++
    (varUInt32.writeIf (d.unStatus &&& blockHaveUndo ≠ 0) d.nUndoPos ++
    (Codec.i32.write d.nVersion ++ (uint256Codec.write d.cHashPrev ++
    (uint256Codec.write d.cHashMerkleRoot ++ (uint256Codec.write d.cHashPos ++
    (Codec.u32.write d.unTime ++ (Codec.u32.write d.unBits ++ (Codec.u32.write d.unNonce ++
    (Codec.i64.write d.llFuel ++ (Codec.i32.write d.nFuelRate ++
    (vchCodec.write d.vchSignature ++ Codec.u64.write d.dFeePerKb)))))))))))))))))

/-- Reading into a default-constructed object: what is not stored keeps its default. -/
def unserialize : Reader CDiskBlockIndex := do
  let _ ← varInt32.read
  let ullBlockfee ← Codec.u64.read
  let nHeight ← varInt32.read
  let unStatus ← varUInt32.read
  let unTx ← varUInt32.read
  let nFile ← varInt32.readIf (unStatus &&& (blockHaveData ||| blockHaveUndo) ≠ 0) 0
  let nDataPos ← varUInt32.readIf (unStatus &&& blockHaveData ≠ 0) 0
  let nUndoPos ← varUInt32.readIf (unStatus &&& blockHaveUndo ≠ 0) 0
  let nVersion ← Codec.i32.read
  let cHashPrev ← uint256Codec.read
  let cHashMerkleRoot ← uint256Codec.read
  let cHashPos ← uint256Codec.read
  let unTime ← Codec.u32.read
  let unBits ← Codec.u32.read
  let unNonce ← Codec.u32.read
  let llFuel ← Codec.i64.read
  let nFuelRate ← Codec.i32.read
  let vchSignature ← vchCodec.read
  let dFeePerKb ← Codec.u64.read
  return {
    hashBlock := 0, nHeight, nFile, nDataPos, nUndoPos, cChainWork := 0, unTx, unChainTx := 0,
    unStatus, ullBlockfee, nVersion, cHashMerkleRoot, cHashPos, unTime, unBits, unNonce, llFuel,
    nFuelRate, vchSignature, dFeePerKb, uSequenceId := 0, cHashPrev }

/-- What a stored entry is when it comes back: memory-only fields and the file positions
its status does not announce are lost. -/
def stored (d : CDiskBlockIndex) : CDiskBlockIndex :=
  { d with
    hashBlock := 0
    cChainWork := 0
    unChainTx := 0
    uSequenceId := 0
    nFile := if d.unStatus &&& (blockHaveData ||| blockHaveUndo) ≠ 0 then d.nFile else 0
    nDataPos := if d.unStatus &&& blockHaveData ≠ 0 then d.nDataPos else 0
    nUndoPos := if d.unStatus &&& blockHaveUndo ≠ 0 then d.nUndoPos else 0 }

/-- The header `CDiskBlockIndex::GetBlockHash` rebuilds. -/
def getBlockHeader (d : CDiskBlockIndex) : CBlockHeader :=
  let h := { CBlockHeader.null with
    nVersion := d.nVersion
    cHashPrevBlock := d.cHashPrev
    cHashMerkleRoot := d.cHashMerkleRoot
    cHashPos := d.cHashPos
    unTime := d.unTime
    unBits := d.unBits
    unNonce := d.unNonce }
  let h := h.setHeight (UInt32.ofInt d.nHeight)
  { h with
    llFuel := d.llFuel
    nFuelRate := d.nFuelRate
    vchSignature := d.vchSignature }

/-- `CDiskBlockIndex::GetBlockHash`. -/
def getBlockHash (Hash : Bytes → Uint256) (d : CDiskBlockIndex) : Uint256 :=
  d.getBlockHeader.getHash Hash

end CDiskBlockIndex

/-! ## Database round trip -/

/-- A stored entry comes back, whatever follows it in the stream. -/
theorem CDiskBlockIndex.unserialize_serialize (d : CDiskBlockIndex) (rest : Bytes)
    (hh : 0 ≤ d.nHeight ∧ d.nHeight < 2 ^ 31) (hf : 0 ≤ d.nFile ∧ d.nFile < 2 ^ 31)
    (hs : vchCodec.Fits d.vchSignature) :
    CDiskBlockIndex.unserialize (d.serialize ++ rest) = some (d.stored, rest) := by
  have hc : varInt32.Fits clientVersion := by
    show 0 ≤ clientVersion ∧ clientVersion < 2 ^ 31
    decide
  simp only [CDiskBlockIndex.unserialize, CDiskBlockIndex.serialize, List.append_assoc]
  rw [varInt32.read_bind _ _ _ hc, Codec.u64.read_bind _ _ _ trivial,
    varInt32.read_bind _ _ _ hh, varUInt32.read_bind _ _ _ trivial,
    varUInt32.read_bind _ _ _ trivial, varInt32.readIf_bind _ _ _ _ _ fun _ => hf,
    varUInt32.readIf_bind _ _ _ _ _ fun _ => trivial, varUInt32.readIf_bind _ _ _ _ _ fun _ => trivial,
    Codec.i32.read_bind _ _ _ trivial, uint256Codec.read_bind _ _ _ trivial,
    uint256Codec.read_bind _ _ _ trivial, uint256Codec.read_bind _ _ _ trivial,
    Codec.u32.read_bind _ _ _ trivial, Codec.u32.read_bind _ _ _ trivial,
    Codec.u32.read_bind _ _ _ trivial, Codec.i64.read_bind _ _ _ trivial,
    Codec.i32.read_bind _ _ _ trivial, vchCodec.read_bind _ _ _ hs,
    Codec.u64.read_bind _ _ _ trivial]
  rfl

/-! ## Which headers each copy keeps -/

namespace CBlockHeader

/-- The version `SetHeight` leaves in a header. -/
def versionAt (height : UInt32) (v : Int32) : Int32 :=
  if height < updateBlockVersionHeight ∧ 0 < height then blockVersion2 else v

/-- `SetHeight` leaves the version alone. -/
def VersionKept (h : CBlockHeader) : Prop :=
  h.unHeight = 0 ∨ updateBlockVersionHeight ≤ h.unHeight ∨ h.nVersion = blockVersion2

instance (h : CBlockHeader) : Decidable h.VersionKept := by
  unfold VersionKept
  infer_instance

theorem setHeight_eq (h : CBlockHeader) (height : UInt32) :
    h.setHeight height = { h with nVersion := versionAt height h.nVersion, unHeight := height } := by
  unfold setHeight versionAt
  split <;> rfl

theorem versionAt_eq_iff (h : CBlockHeader) :
    versionAt h.unHeight h.nVersion = h.nVersion ↔ h.VersionKept := by
  unfold versionAt VersionKept
  split
  · next hlow =>
    have h0 : h.unHeight ≠ 0 := UInt32.pos_iff_ne_zero.mp hlow.2
    have h1 : ¬ updateBlockVersionHeight ≤ h.unHeight := UInt32.not_le.mpr hlow.1
    simp [h0, h1, eq_comm]
  · next hhigh =>
    have hor : h.unHeight = 0 ∨ updateBlockVersionHeight ≤ h.unHeight := by
      by_cases h0 : h.unHeight = 0
      · exact .inl h0
      · exact .inr (UInt32.not_lt.mp fun hlt => hhigh ⟨hlt, UInt32.pos_iff_ne_zero.mpr h0⟩)
    exact iff_of_true rfl (hor.imp_right .inl)

/-- The value survives `GetFuel` exactly when 32 bits hold it. -/
theorem fuelNarrowed_eq_iff (f : Int64) :
    fuelNarrowed f = f ↔ 0 ≤ f.toInt ∧ f.toInt < 2 ^ 32 := by
  have hval : (fuelNarrowed f).toBitVec.toNat = f.toBitVec.toNat % 2 ^ 32 := by
    simp [fuelNarrowed]
  have hlt : f.toBitVec.toNat < 2 ^ 64 := f.toBitVec.isLt
  have hint : f.toInt = f.toBitVec.toInt := rfl
  rw [hint, BitVec.toInt_eq_toNat_cond]
  constructor
  · intro h
    rw [h] at hval
    split <;> omega
  · intro h
    have hsmall : f.toBitVec.toNat < 2 ^ 32 := by
      split at h <;> omega
    rw [Nat.mod_eq_of_lt hsmall] at hval
    exact Int64.toBitVec_inj.mp (BitVec.eq_of_toNat_eq hval)

/-- A header with other values in the version and the two fuel fields hashes the same bytes
exactly when the values are the same. -/
theorem hashPreimage_update_iff (h : CBlockHeader) (v : Int32) (f : Int64) (r : Int32) :
    ({ h with nVersion := v, llFuel := f, nFuelRate := r } : CBlockHeader).hashPreimage
      = h.hashPreimage ↔ v = h.nVersion ∧ f = h.llFuel ∧ r = h.nFuelRate := by
  constructor
  · intro heq
    have hinj := hashPreimage_inj heq
    exact ⟨congrArg nVersion hinj, congrArg llFuel hinj, congrArg nFuelRate hinj⟩
  · rintro ⟨rfl, rfl, rfl⟩
    rfl

end CBlockHeader

/-- `CBlock::GetBlockHeader` changes at most the version. -/
theorem CBlock.getBlockHeader_eq (b : CBlock) :
    b.getBlockHeader
      = { b.toCBlockHeader with
            nVersion := CBlockHeader.versionAt b.unHeight b.nVersion } := by
  simp only [CBlock.getBlockHeader, CBlockHeader.setHeight_eq]

theorem CBlock.getBlockHeader_hashPreimage_iff (b : CBlock) :
    b.getBlockHeader.hashPreimage = b.toCBlockHeader.hashPreimage ↔ b.VersionKept := by
  have hupd := b.toCBlockHeader.hashPreimage_update_iff
    (CBlockHeader.versionAt b.unHeight b.nVersion) b.llFuel b.nFuelRate
  rw [b.getBlockHeader_eq]
  refine hupd.trans ?_
  rw [CBlockHeader.versionAt_eq_iff]
  simp

/-- The entry `p`, linked to `pPrev`, was made from block `b`: the header fields as the
constructor copies them, the height and the link as `AddToBlockIndex` sets them. -/
structure CBlockIndex.Records (p : CBlockIndex) (pPrev : PBlockIndex) (b : CBlock) : Prop where
  nVersion : p.nVersion = b.nVersion
  cHashMerkleRoot : p.cHashMerkleRoot = b.cHashMerkleRoot
  cHashPos : p.cHashPos = b.cHashPos
  unTime : p.unTime = b.unTime
  unBits : p.unBits = b.unBits
  unNonce : p.unNonce = b.unNonce
  llFuel : p.llFuel = CBlockHeader.fuelNarrowed b.llFuel
  nFuelRate : p.nFuelRate = b.nFuelRate
  vchSignature : p.vchSignature = b.vchSignature
  height : UInt32.ofInt p.nHeight = b.unHeight
  link : (match pPrev with | [] => (0 : Uint256) | prev :: _ => prev.hashBlock) = b.cHashPrevBlock

section
variable {p : CBlockIndex} {pPrev : PBlockIndex} {b : CBlock}

/-- `CBlockIndex::GetBlockHeader` also drops the fuel and the fuel rate. -/
theorem CBlockIndex.Records.getBlockHeader_eq (hp : p.Records pPrev b) :
    p.getBlockHeader pPrev
      = { b.toCBlockHeader with
            nVersion := CBlockHeader.versionAt b.unHeight b.nVersion
            llFuel := 0
            nFuelRate := initFuelRates } := by
  have hlink := hp.link
  simp only [CBlockIndex.getBlockHeader, CBlockHeader.setHeight_eq, hp.height, hp.cHashMerkleRoot,
    hp.cHashPos, hp.unTime, hp.unBits, hp.unNonce, hp.vchSignature]
  cases pPrev with
  | nil => simp only [← hlink, ← hp.nVersion]; rfl
  | cons prev rest => simp only [← hlink, ← hp.nVersion]; rfl

theorem CBlockIndex.Records.getBlockHeader_hashPreimage_iff (hp : p.Records pPrev b) :
    (p.getBlockHeader pPrev).hashPreimage = b.toCBlockHeader.hashPreimage ↔
      b.VersionKept ∧ b.llFuel = 0 ∧ b.nFuelRate = initFuelRates := by
  rw [hp.getBlockHeader_eq, CBlockHeader.hashPreimage_update_iff, CBlockHeader.versionAt_eq_iff,
    eq_comm (a := (0 : Int64)), eq_comm (a := initFuelRates)]

/-- The database form keeps the rate and the low 32 bits of the fuel. -/
theorem CBlockIndex.Records.disk_getBlockHeader_eq (hp : p.Records pPrev b) :
    (CDiskBlockIndex.ofIndex p pPrev).stored.getBlockHeader
      = { b.toCBlockHeader with
            nVersion := CBlockHeader.versionAt b.unHeight b.nVersion
            llFuel := CBlockHeader.fuelNarrowed b.llFuel } := by
  have hlink := hp.link
  simp only [CDiskBlockIndex.getBlockHeader, CDiskBlockIndex.stored, CDiskBlockIndex.ofIndex,
    CBlockHeader.setHeight_eq, hp.height, hp.cHashMerkleRoot, hp.cHashPos, hp.unTime, hp.unBits,
    hp.unNonce, hp.vchSignature, hp.nVersion, hp.llFuel, hp.nFuelRate]
  cases pPrev with
  | nil => simp only [← hlink]
  | cons prev rest => simp only [← hlink]

theorem CBlockIndex.Records.disk_hashPreimage_iff (hp : p.Records pPrev b) :
    (CDiskBlockIndex.ofIndex p pPrev).stored.getBlockHeader.hashPreimage
        = b.toCBlockHeader.hashPreimage ↔
      b.VersionKept ∧ 0 ≤ b.llFuel.toInt ∧ b.llFuel.toInt < 2 ^ 32 := by
  have hupd := b.toCBlockHeader.hashPreimage_update_iff
    (CBlockHeader.versionAt b.unHeight b.nVersion) (CBlockHeader.fuelNarrowed b.llFuel) b.nFuelRate
  rw [hp.disk_getBlockHeader_eq]
  refine hupd.trans ?_
  rw [CBlockHeader.versionAt_eq_iff, CBlockHeader.fuelNarrowed_eq_iff]
  simp

end

end Dacrs
