import Dacrs.Check
import Dacrs.MerkleBranch

/-!
# Partial merkle trees

`CPartialMerkleTree`: the bits and hashes that `TraverseAndBuild` pushes in depth-first order,
their wire form with the bits packed into bytes, and `ExtractMatches`, which walks them again.
A read outside a vector is `none` in the model of the extractor.
-/

open Codec (Bytes Reader)

namespace Dacrs

/-- `CPartialMerkleTree`. -/
structure CPartialMerkleTree where
  unTransactions : UInt32
  vbBits : List Bool
  vcHash : List Uint256
  bBad : Bool
deriving DecidableEq

/-- The locals of `ExtractMatches` that `TraverseAndExtract` moves, and `m_bBad`. -/
structure Extraction where
  unBitsUsed : ℕ
  unHashUsed : ℕ
  vcMatch : List Uint256
  bBad : Bool
deriving DecidableEq

namespace CPartialMerkleTree

/-! ## The tree -/

/-- `CalcTreeWidth`, in `unsigned int`. -/
def calcTreeWidth (unTransactions : UInt32) (nHeight : ℕ) : ℕ :=
  (unTransactions.toNat + 2 ^ nHeight - 1) % 2 ^ 32 / 2 ^ nHeight

/-- "while (CalcTreeWidth(nHeight) > 1) nHeight++", for so many turns. -/
def calcTreeHeightGo (unTransactions : UInt32) : ℕ → ℕ → ℕ
  | 0, nHeight => nHeight
  | k + 1, nHeight =>
    if 1 < calcTreeWidth unTransactions nHeight then
      calcTreeHeightGo unTransactions k (nHeight + 1)
    else nHeight

/-- The height of the tree; at 31 no count is wider than one node. -/
def calcTreeHeight (unTransactions : UInt32) : ℕ := calcTreeHeightGo unTransactions 31 0

section Build
variable (Hash : Bytes → Uint256) (unTransactions : UInt32) (vcTxid : List Uint256)
  (vbMatch : List Bool)

/-- `CalcHash`. -/
def calcHash : ℕ → ℕ → Uint256
  | 0, nPos => vcTxid.getD nPos 0
  | nHeight + 1, nPos =>
    let left := calcHash nHeight (nPos * 2)
    let right :=
      if nPos * 2 + 1 < calcTreeWidth unTransactions nHeight then calcHash nHeight (nPos * 2 + 1)
      else left
    hashNode Hash left right

/-- Whether a node is the parent of at least one matched txid. -/
def parentOfMatch (nHeight nPos : ℕ) : Bool :=
  (List.range' (nPos * 2 ^ nHeight) (2 ^ nHeight)).any fun p =>
    p < unTransactions.toNat && vbMatch.getD p false

/-- `TraverseAndBuild`: the bits and the hashes it pushes. -/
def traverseAndBuild : ℕ → ℕ → List Bool × List Uint256
  | 0, nPos =>
    ([parentOfMatch unTransactions vbMatch 0 nPos], [calcHash Hash unTransactions vcTxid 0 nPos])
  | nHeight + 1, nPos =>
    let bParentOfMatch := parentOfMatch unTransactions vbMatch (nHeight + 1) nPos
    if bParentOfMatch = false then
      ([bParentOfMatch], [calcHash Hash unTransactions vcTxid (nHeight + 1) nPos])
    else
      let left := traverseAndBuild nHeight (nPos * 2)
      let right :=
        if nPos * 2 + 1 < calcTreeWidth unTransactions nHeight then
          traverseAndBuild nHeight (nPos * 2 + 1)
        else ([], [])
      (bParentOfMatch :: (left.1 ++ right.1), left.2 ++ right.2)

end Build

/-- The constructor from txids and a mask. -/
def ofTxids (Hash : Bytes → Uint256) (vcTxid : List Uint256) (vbMatch : List Bool) :
    CPartialMerkleTree :=
  let unTransactions := UInt32.ofNat vcTxid.length
  let pushed := traverseAndBuild Hash unTransactions vcTxid vbMatch (calcTreeHeight unTransactions) 0
  ⟨unTransactions, pushed.1, pushed.2, false⟩

/-! ## Extraction -/

section Extract
variable (Hash : Bytes → Uint256) (t : CPartialMerkleTree)

/-- `m_bBad = true`. -/
def fail (st : Extraction) : Extraction := { st with bBad := true }

/-- Takes the bit at `unBitsUsed`, where the caller has made sure that there is one. -/
def nextBit (st : Extraction) : Option (Bool × Extraction) := do
  let bParentOfMatch ← t.vbBits[st.unBitsUsed]?
  return (bParentOfMatch, { st with unBitsUsed := st.unBitsUsed + 1 })

/-- "use stored hash and do not descend". -/
def storedHash (bMatch : Bool) (st : Extraction) : Option (Uint256 × Extraction) :=
  if t.vcHash.length ≤ st.unHashUsed then some (0, fail st)
  else do
    let hash ← t.vcHash[st.unHashUsed]?
    let st := { st with unHashUsed := st.unHashUsed + 1 }
    return (hash, if bMatch then { st with vcMatch := st.vcMatch ++ [hash] } else st)

/-- `TraverseAndExtract`. -/
def traverseAndExtract : ℕ → ℕ → Extraction → Option (Uint256 × Extraction)
  | 0, _, st =>
    if t.vbBits.length ≤ st.unBitsUsed then some (0, fail st)
    else do
      let bit ← t.nextBit st
      t.storedHash bit.1 bit.2
  | nHeight + 1, nPos, st =>
    if t.vbBits.length ≤ st.unBitsUsed then some (0, fail st)
    else do
      let bit ← t.nextBit st
      if bit.1 = false then t.storedHash false bit.2
      else
        let left ← traverseAndExtract nHeight (nPos * 2) bit.2
        let right ← (
          if nPos * 2 + 1 < calcTreeWidth t.unTransactions nHeight then
            traverseAndExtract nHeight (nPos * 2 + 1) left.2
          else some left)
        return (hashNode Hash left.1 right.1, right.2)

/-- `ExtractMatches`: the root, or 0, and how much was used. -/
def extractMatches : Option (Uint256 × Extraction) :=
  let start : Extraction := ⟨0, 0, [], t.bBad⟩
  if t.unTransactions = 0 then some (0, start)
  else if maxBlockSize / 60 < t.unTransactions.toNat then some (0, start)
  else if t.unTransactions.toNat < t.vcHash.length then some (0, start)
  else if t.vbBits.length < t.vcHash.length then some (0, start)
  else do
    let run ← t.traverseAndExtract Hash (calcTreeHeight t.unTransactions) 0 start
    if run.2.bBad then some (0, run.2)
    else if (run.2.unBitsUsed + 7) / 8 ≠ (t.vbBits.length + 7) / 8 then some (0, run.2)
    else if run.2.unHashUsed ≠ t.vcHash.length then some (0, run.2)
    else some run

end Extract

/-! ## The wire form -/

/-- Eight bits, least significant first. -/
def byteOfBits (bit : ℕ → Bool) : UInt8 :=
  UInt8.ofNat ((List.range 8).foldl (fun byte k => byte ||| (bit k).toNat <<< k) 0)

/-- "vcBytes[p / 8] |= m_vbBits[p] << (p % 8)" for every `p`. -/
def bitsToBytes (vbBits : List Bool) : Bytes :=
  (List.range ((vbBits.length + 7) / 8)).map fun q => byteOfBits fun k => vbBits.getD (q * 8 + k) false

/-- "m_vbBits[p] = (vcBytes[p / 8] & (1 << (p % 8))) != 0" for every `p`. -/
def bytesToBits (vcBytes : Bytes) : List Bool :=
  (List.range (vcBytes.length * 8)).map fun p => (vcBytes.getD (p / 8) 0).toNat.testBit (p % 8)

/-- Count, hashes, bits. -/
def serialize (t : CPartialMerkleTree) : Bytes :=
  Codec.u32.write t.unTransactions ++ ((Codec.vec maxSize uint256Codec).write t.vcHash ++
    vchCodec.write (bitsToBytes t.vbBits))

def deserialize : Reader CPartialMerkleTree := do
  let unTransactions ← Codec.u32.read
  let vcHash ← (Codec.vec maxSize uint256Codec).read
  let vcBytes ← vchCodec.read
  return ⟨unTransactions, bytesToBits vcBytes, vcHash, false⟩

end CPartialMerkleTree

/-- The root that `BuildMerkleTree` computes over these hashes. -/
def merkleRoot (Hash : Bytes → Uint256) (vcTxid : List Uint256) : Uint256 :=
  (merkleTreeGo Hash vcTxid.length vcTxid).getLast?.getD 0

/-- The txids that the mask selects, in order. -/
def matchedTxids (vcTxid : List Uint256) (vbMatch : List Bool) : List Uint256 :=
  ((vcTxid.zip vbMatch).filter fun p => p.2).map fun p => p.1

theorem CBlock.buildMerkleTree_eq (Hash : Bytes → Uint256) (b : CBlock) :
    b.buildMerkleTree Hash = merkleRoot Hash (b.vptx.map (CBaseTransaction.getHash Hash)) := by
  unfold merkleRoot CBlock.buildMerkleTree CBlock.vMerkleTree
  rw [List.length_map]

namespace CPartialMerkleTree

/-! ## Every extraction reads inside the vectors -/

section Reads
variable (Hash : Bytes → Uint256) (t : CPartialMerkleTree)

theorem storedHash_isSome (bMatch : Bool) (st : Extraction) :
    ∃ run, t.storedHash bMatch st = some run := by
  unfold storedHash
  split
  · exact ⟨_, rfl⟩
  · next h =>
    rw [List.getElem?_eq_getElem (Nat.lt_of_not_le h)]
    exact ⟨_, rfl⟩

theorem nextBit_isSome {st : Extraction} (h : ¬ t.vbBits.length ≤ st.unBitsUsed) :
    ∃ bit, t.nextBit st = some bit := by
  unfold nextBit
  rw [List.getElem?_eq_getElem (Nat.lt_of_not_le h)]
  exact ⟨_, rfl⟩

theorem traverseAndExtract_isSome (nHeight nPos : ℕ) (st : Extraction) :
    ∃ run, t.traverseAndExtract Hash nHeight nPos st = some run := by
  induction nHeight generalizing nPos st with
  | zero =>
    unfold traverseAndExtract
    split
    · exact ⟨_, rfl⟩
    · next h =>
      obtain ⟨bit, hbit⟩ := t.nextBit_isSome h
      rw [hbit]
      exact t.storedHash_isSome bit.1 bit.2
  | succ nHeight ih =>
    unfold traverseAndExtract
    split
    · exact ⟨_, rfl⟩
    · next h =>
      obtain ⟨bit, hbit⟩ := t.nextBit_isSome h
      rw [hbit, Option.bind_eq_bind, Option.bind_some]
      split
      · exact t.storedHash_isSome false bit.2
      · obtain ⟨left, hleft⟩ := ih (nPos * 2) bit.2
        rw [hleft, Option.bind_eq_bind, Option.bind_some]
        split
        · obtain ⟨right, hright⟩ := ih (nPos * 2 + 1) left.2
          rw [hright]
          exact ⟨_, rfl⟩
        · exact ⟨_, rfl⟩

/-- Nothing but 0 comes back while a hash or a whole byte of bits is unused. -/
theorem extractMatches_unused : ∃ root st, t.extractMatches Hash = some (root, st) ∧
    (st.unHashUsed ≠ t.vcHash.length → root = 0) ∧
    ((st.unBitsUsed + 7) / 8 ≠ (t.vbBits.length + 7) / 8 → root = 0) := by
  unfold extractMatches
  dsimp only
  split
  · exact ⟨_, _, rfl, fun _ => rfl, fun _ => rfl⟩
  split
  · exact ⟨_, _, rfl, fun _ => rfl, fun _ => rfl⟩
  split
  · exact ⟨_, _, rfl, fun _ => rfl, fun _ => rfl⟩
  split
  · exact ⟨_, _, rfl, fun _ => rfl, fun _ => rfl⟩
  obtain ⟨run, hrun⟩ := t.traverseAndExtract_isSome Hash (calcTreeHeight t.unTransactions) 0
    ⟨0, 0, [], t.bBad⟩
  rw [hrun, Option.bind_eq_bind, Option.bind_some]
  split
  · exact ⟨_, _, rfl, fun _ => rfl, fun _ => rfl⟩
  split
  · exact ⟨_, _, rfl, fun _ => rfl, fun _ => rfl⟩
  · next hbits =>
    split
    · exact ⟨_, _, rfl, fun _ => rfl, fun _ => rfl⟩
    · next hhash =>
      exact ⟨_, _, rfl, fun h => absurd h hhash, fun h => absurd h hbits⟩

end Reads

end CPartialMerkleTree

end Dacrs
