import Dacrs.Transaction

/-!
# Block headers and blocks

`CBlockHeader` with its serialized form and its hash.  From version 3 on the hash
covers every field but the signature (`SignatureHash`); below that it covers the
whole serialization.  `CBlock` adds the transactions, their merkle tree and the
copy `GetBlockHeader` makes of the header.
-/

open Codec (Bytes)

namespace Dacrs

/-! ## Header -/

/-- `g_sBlockVersion2`, `g_sBlockVersion3`. -/
def blockVersion2 : Int32 := 2
def blockVersion3 : Int32 := 3

/-- Below this height every header carries version 2. -/
def updateBlockVersionHeight : UInt32 := 209000

/-- `INIT_FUEL_RATES`. -/
def initFuelRates : Int32 := 100

structure CBlockHeader where
  nVersion : Int32
  cHashPrevBlock : Uint256
  cHashMerkleRoot : Uint256
  cHashPos : Uint256
  unTime : UInt32
  unBits : UInt32
  unNonce : UInt32
  unHeight : UInt32
  llFuel : Int64
  nFuelRate : Int32
  vchSignature : Bytes
deriving DecidableEq, Inhabited

namespace CBlockHeader

/-- `SetNull`, the default constructor. -/
def null : CBlockHeader where
  nVersion := blockVersion3
  cHashPrevBlock := 0
  cHashMerkleRoot := 0
  cHashPos := 0
  unTime := 0
  unBits := 0
  unNonce := 0
  unHeight := 0
  llFuel := 0
  nFuelRate := initFuelRates
  vchSignature := []

/-- `SetHeight` also overrides the version at low heights. -/
def setHeight (h : CBlockHeader) (height : UInt32) : CBlockHeader :=
  if height < updateBlockVersionHeight ∧ 0 < height then
    { h with nVersion := blockVersion2, unHeight := height }
  else { h with unHeight := height }

/-- `GetFuel` returns `unsigned int`. -/
def getFuel (h : CBlockHeader) : UInt32 := h.llFuel.toUInt64.toUInt32

/-- The value of `GetFuel` where an `int64_t` is wanted. -/
def fuelNarrowed (llFuel : Int64) : Int64 := llFuel.toUInt64.toUInt32.toUInt64.toInt64

/-- What `SignatureHash` hashes. -/
def signaturePreimage (h : CBlockHeader) : Bytes :=
  Codec.i32.write h.nVersion ++ (uint256Codec.write h.cHashPrevBlock ++
    (uint256Codec.write h.cHashMerkleRoot ++ (uint256Codec.write h.cHashPos ++
    (Codec.u32.write h.unTime ++ (Codec.u32.write h.unBits ++ (Codec.u32.write h.unNonce ++
    (Codec.u32.write h.unHeight ++ (Codec.i64.write h.llFuel ++ Codec.i32.write h.nFuelRate))))))))

/-- The serialized header: the same fields, then the signature. -/
def serialize (h : CBlockHeader) : Bytes := h.signaturePreimage ++ vchCodec.write h.vchSignature

/-- The bytes `GetHash` hashes. -/
def hashPreimage (h : CBlockHeader) : Bytes :=
  if blockVersion3 ≤ h.nVersion then h.signaturePreimage else h.serialize

def getHash (Hash : Bytes → Uint256) (h : CBlockHeader) : Uint256 := Hash h.hashPreimage

end CBlockHeader

/-! ## What the header hash covers -/

/-- The fixed-width fields are read off the preimage one by one. -/
theorem CBlockHeader.signaturePreimage_inj {g h : CBlockHeader} {r s : Bytes}
    (heq : g.signaturePreimage ++ r = h.signaturePreimage ++ s) :
    g = { h with vchSignature := g.vchSignature } ∧ r = s := by
  obtain ⟨gv, gp, gm, gx, gt, gb, gn, gh, gf, gr, gs⟩ := g
  obtain ⟨hv, hp, hm, hx, ht, hb, hn, hh, hf, hr, hs⟩ := h
  simp only [CBlockHeader.signaturePreimage, List.append_assoc] at heq
  obtain ⟨rfl, h1⟩ := Codec.i32.write_append_inj trivial trivial heq
  obtain ⟨rfl, h2⟩ := uint256Codec.write_append_inj trivial trivial h1
  obtain ⟨rfl, h3⟩ := uint256Codec.write_append_inj trivial trivial h2
  obtain ⟨rfl, h4⟩ := uint256Codec.write_append_inj trivial trivial h3
  obtain ⟨rfl, h5⟩ := Codec.u32.write_append_inj trivial trivial h4
  obtain ⟨rfl, h6⟩ := Codec.u32.write_append_inj trivial trivial h5
  obtain ⟨rfl, h7⟩ := Codec.u32.write_append_inj trivial trivial h6
  obtain ⟨rfl, h8⟩ := Codec.u32.write_append_inj trivial trivial h7
  obtain ⟨rfl, h9⟩ := Codec.i64.write_append_inj trivial trivial h8
  obtain ⟨rfl, h10⟩ := Codec.i32.write_append_inj trivial trivial h9
  exact ⟨rfl, h10⟩

/-- Equal hashed bytes: the headers agree outside the signature. -/
theorem CBlockHeader.hashPreimage_inj {g h : CBlockHeader}
    (heq : g.hashPreimage = h.hashPreimage) : g = { h with vchSignature := g.vchSignature } := by
  have hsplit : ∀ k : CBlockHeader, ∃ r, k.hashPreimage = k.signaturePreimage ++ r := by
    intro k
    unfold CBlockHeader.hashPreimage
    split
    · exact ⟨[], (List.append_nil _).symm⟩
    · exact ⟨vchCodec.write k.vchSignature, rfl⟩
  obtain ⟨r, hr⟩ := hsplit g
  obtain ⟨s, hs⟩ := hsplit h
  rw [hr, hs] at heq
  exact (CBlockHeader.signaturePreimage_inj heq).1

/-- The signature is hashed exactly below version 3. -/
theorem CBlockHeader.hashPreimage_signature (h : CBlockHeader) (sig : Bytes)
    (hv : blockVersion3 ≤ h.nVersion) :
    ({ h with vchSignature := sig } : CBlockHeader).hashPreimage = h.hashPreimage := by
  simp only [CBlockHeader.hashPreimage, if_pos hv]
  rfl

/-! ## Blocks -/

structure CBlock extends CBlockHeader where
  vptx : List CBaseTransaction
deriving DecidableEq, Inhabited

/-- One level of the merkle tree; an odd last node is paired with itself. -/
def merkleLevel (Hash : Bytes → Uint256) : List Uint256 → List Uint256
  | [] => []
  | [a] => [Hash (uint256Codec.write a ++ uint256Codec.write a)]
  | a :: b :: rest => Hash (uint256Codec.write a ++ uint256Codec.write b) :: merkleLevel Hash rest

/-- All levels in a row, leaves first; every level but the last is halved. -/
def merkleTreeGo (Hash : Bytes → Uint256) : Nat → List Uint256 → List Uint256
  | 0, level => level
  | k + 1, level =>
    if level.length ≤ 1 then level else level ++ merkleTreeGo Hash k (merkleLevel Hash level)

namespace CBlock

/-- `CBlock::GetBlockHeader` copies field by field through the setters. -/
def getBlockHeader (b : CBlock) : CBlockHeader :=
  let h := { CBlockHeader.null with
    nVersion := b.nVersion
    cHashPrevBlock := b.cHashPrevBlock
    cHashMerkleRoot := b.cHashMerkleRoot
    cHashPos := b.cHashPos
    unTime := b.unTime
    unBits := b.unBits
    unNonce := b.unNonce }
  let h := h.setHeight b.unHeight
  { h with
    llFuel := b.llFuel
    nFuelRate := b.nFuelRate
    vchSignature := b.vchSignature }

/-- The sum of the fees after the coinbase, in `int64_t`. -/
def getFee (b : CBlock) : Int64 :=
  (b.vptx.drop 1).foldl (fun llFees tx => llFees + tx.getFee.toInt64) 0

/-- The serialized block. -/
def serialize (b : CBlock) : Bytes :=
  b.toCBlockHeader.serialize ++ Codec.writeCompactSize b.vptx.length ++
    b.vptx.flatMap CBaseTransaction.serializePtr

section
variable (Hash : Bytes → Uint256)

/-- `vMerkleTree`: the transaction hashes and everything above them. -/
def vMerkleTree (b : CBlock) : List Uint256 :=
  merkleTreeGo Hash b.vptx.length (b.vptx.map (CBaseTransaction.getHash Hash))

/-- `BuildMerkleTree` returns the root. -/
def buildMerkleTree (b : CBlock) : Uint256 := (b.vMerkleTree Hash).getLast?.getD 0

end

end CBlock

end Dacrs
