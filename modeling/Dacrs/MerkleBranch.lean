import Dacrs.Block
import Dacrs.Lib.MerkleTree

/-!
# Merkle branches

`GetMerkleBranch` walks the flat vector that `BuildMerkleTree` left, level after level;
`CheckMerkleBranch` folds a branch over a leaf.  `checkMerkleBranch_verifies`: the branch of a
transaction leads to the block's root, and from no other leaf where the hash of two nodes is
injective in each of them.
-/

open Codec (Bytes)

namespace Dacrs

section
variable (Hash : Bytes → Uint256)

/-- The hash of two nodes. -/
def hashNode (left right : Uint256) : Uint256 :=
  Hash (uint256Codec.write left ++ uint256Codec.write right)

/-- The loop of `GetMerkleBranch` for the level that starts at `j`; `none` is a read behind
the end of `vMerkleTree`. -/
def merkleBranchGo (vMerkleTree : List Uint256) (j nSize nIndex : ℕ) : Option (List Uint256) :=
  if nSize ≤ 1 then some []
  else do
    let i := min (nIndex ^^^ 1) (nSize - 1)
    let otherside ← vMerkleTree[j + i]?
    let rest ← merkleBranchGo vMerkleTree (j + nSize) ((nSize + 1) / 2) (nIndex / 2)
    return otherside :: rest
termination_by nSize
decreasing_by omega

/-- `CBlock::GetMerkleBranch`. -/
def CBlock.getMerkleBranch (b : CBlock) (nIndex : ℕ) : Option (List Uint256) :=
  merkleBranchGo (b.vMerkleTree Hash) 0 b.vptx.length nIndex

/-- The loop of `CheckMerkleBranch`; `nIndex & 1` and `nIndex >>= 1` on an `int`. -/
def checkMerkleBranchGo : Uint256 → List Uint256 → ℤ → Uint256
  | cHash, [], _ => cHash
  | cHash, otherside :: rest, nIndex =>
    if nIndex % 2 = 1 then checkMerkleBranchGo (hashNode Hash otherside cHash) rest (nIndex / 2)
    else checkMerkleBranchGo (hashNode Hash cHash otherside) rest (nIndex / 2)

/-- `CBlock::CheckMerkleBranch`. -/
def checkMerkleBranch (cHash : Uint256) (vcMerkleBranch : List Uint256) (nIndex : ℤ) : Uint256 :=
  if nIndex = -1 then 0 else checkMerkleBranchGo Hash cHash vcMerkleBranch nIndex

/-! ## As walks over the levels -/

theorem merkleLevel_eq (l : List Uint256) :
    merkleLevel Hash l = MerkleTree.level (hashNode Hash) l := by
  induction l using MerkleTree.level.induct with
  | case1 => rfl
  | case2 a => rfl
  | case3 a b rest ih =>
    rw [merkleLevel, ih]
    rfl

theorem checkMerkleBranchGo_eq (cHash : Uint256) (branch : List Uint256) (i : ℕ) :
    checkMerkleBranchGo Hash cHash branch i = MerkleTree.climb (hashNode Hash) cHash branch i := by
  induction branch generalizing cHash i with
  | nil => rfl
  | cons otherside branch ih =>
    have hhalf : (i : ℤ) / 2 = ((i / 2 : ℕ) : ℤ) := by omega
    unfold checkMerkleBranchGo MerkleTree.climb
    rw [hhalf]
    by_cases hodd : i % 2 = 1
    · rw [if_pos (by omega), if_pos hodd, ih]
    · rw [if_neg (by omega), if_neg hodd, ih]

/-- From a level on: the branch is found in the flat vector and leads to its last entry. -/
theorem merkleBranchGo_spec (vMerkleTree : List Uint256) (k j i : ℕ) {level : List Uint256}
    {cHash : Uint256} (hfuel : level.length ≤ k + 1)
    (htree : vMerkleTree.drop j = merkleTreeGo Hash k level) (hi : level[i]? = some cHash) :
    ∃ branch, merkleBranchGo vMerkleTree j level.length i = some branch ∧
      (merkleTreeGo Hash k level).getLast? = some (MerkleTree.climb (hashNode Hash) cHash branch i) := by
  induction k generalizing j i level cHash with
  | zero =>
    refine ⟨[], ?_, ?_⟩
    · rw [merkleBranchGo, if_pos (by omega)]
    · obtain ⟨hlt, hget⟩ := List.getElem?_eq_some_iff.mp hi
      obtain ⟨a, rfl⟩ := List.length_eq_one_iff.mp (show level.length = 1 by omega)
      have hi0 : i = 0 := by simpa using hlt
      subst hi0
      cases hi
      rfl
  | succ k ih =>
    have hlt := (List.getElem?_eq_some_iff.mp hi).1
    unfold merkleTreeGo at htree ⊢
    by_cases hone : level.length ≤ 1
    · rw [if_pos hone]
      refine ⟨[], by rw [merkleBranchGo, if_pos hone], ?_⟩
      obtain ⟨a, rfl⟩ := List.length_eq_one_iff.mp (show level.length = 1 by omega)
      have hi0 : i = 0 := by simpa using hlt
      subst hi0
      cases hi
      rfl
    · rw [if_neg hone] at htree ⊢
      obtain ⟨s, hs, hparent⟩ := MerkleTree.sibling_spec (hashNode Hash) hi
      rw [← merkleLevel_eq] at hparent
      have hlen : (merkleLevel Hash level).length = (level.length + 1) / 2 := by
        rw [merkleLevel_eq, MerkleTree.length_level]
      have hnext : vMerkleTree.drop (j + level.length) = merkleTreeGo Hash k (merkleLevel Hash level) := by
        rw [← List.drop_drop, htree, List.drop_left]
      obtain ⟨rest, hrest, hlast⟩ := ih (j + level.length) (i / 2) (by omega) hnext hparent
      rw [hlen] at hrest
      -- the sibling's place in the flat vector
      have hplace : vMerkleTree[j + min (i ^^^ 1) (level.length - 1)]? = some s := by
        rw [← List.getElem?_drop, htree, List.getElem?_append_left (by omega)]
        exact hs
      refine ⟨s :: rest, ?_, ?_⟩
      · rw [merkleBranchGo, if_neg hone]
        dsimp only
        rw [hplace, hrest]
        rfl
      · have hne : merkleTreeGo Hash k (merkleLevel Hash level) ≠ [] := by
          intro hnil
          rw [hnil] at hlast
          cases hlast
        rw [List.getLast?_append_of_ne_nil _ hne, hlast]
        rfl

end

/-! ## Branches that verify -/

/-- The branch of transaction `i` is there, it takes the hash of the transaction to the root of
the block, and it takes no other leaf there if hashing a pair is injective in each half. -/
theorem checkMerkleBranch_verifies (Hash : Bytes → Uint256) (b : CBlock) (i : ℕ)
    (hi : i < b.vptx.length) :
    ∃ branch, b.getMerkleBranch Hash i = some branch ∧
      checkMerkleBranch Hash ((b.vptx.get ⟨i, hi⟩).getHash Hash) branch i = b.buildMerkleTree Hash ∧
      ((∀ s, Function.Injective fun a => hashNode Hash a s) →
        (∀ s, Function.Injective fun a => hashNode Hash s a) →
        ∀ leaf ≠ (b.vptx.get ⟨i, hi⟩).getHash Hash,
          checkMerkleBranch Hash leaf branch i ≠ b.buildMerkleTree Hash) := by
  set leaves := b.vptx.map (CBaseTransaction.getHash Hash) with hleaves
  have hlen : leaves.length = b.vptx.length := List.length_map _
  have hleaf : leaves[i]? = some ((b.vptx.get ⟨i, hi⟩).getHash Hash) := by
    rw [hleaves, List.getElem?_map, List.getElem?_eq_getElem hi]
    rfl
  obtain ⟨branch, hbranch, hroot⟩ := merkleBranchGo_spec Hash (b.vMerkleTree Hash)
    b.vptx.length 0 i (by rw [List.length_map]; omega) rfl hleaf
  rw [hlen] at hbranch
  have hcheck : ∀ leaf, checkMerkleBranch Hash leaf branch i
      = MerkleTree.climb (hashNode Hash) leaf branch i := by
    intro leaf
    unfold checkMerkleBranch
    rw [if_neg (by omega), checkMerkleBranchGo_eq]
  have hverify : checkMerkleBranch Hash ((b.vptx.get ⟨i, hi⟩).getHash Hash) branch i
      = b.buildMerkleTree Hash := by
    unfold CBlock.buildMerkleTree CBlock.vMerkleTree
    rw [hroot, hcheck]
    rfl
  refine ⟨branch, hbranch, hverify, ?_⟩
  intro hleft hright leaf hne heq
  rw [← hverify, hcheck, hcheck] at heq
  exact hne (MerkleTree.climb_inj (hashNode Hash) hleft hright branch i heq)

/-! ### An instance -/

/-- A hash of a pair that is injective in each half: the exclusive or of the two. -/
def xorHash (vch : Bytes) : Uint256 :=
  match uint256Codec.read vch with
  | none => 0
  | some (left, rest) =>
    match uint256Codec.read rest with
    | none => left
    | some (right, _) => left ^^^ right

theorem hashNode_xorHash (left right : Uint256) : hashNode xorHash left right = left ^^^ right := by
  unfold hashNode xorHash
  rw [uint256Codec.read_write left _ trivial]
  dsimp only
  rw [uint256Codec.read_write_nil right trivial]

/-- Three transactions, the last one without a partner. -/
theorem checkMerkleBranch_verifies_three : ∃ branch,
    CBlock.getMerkleBranch xorHash ⟨CBlockHeader.null, [default, default, default]⟩ 2 = some branch ∧
      ∀ leaf ≠ (default : CBaseTransaction).getHash xorHash, checkMerkleBranch xorHash leaf branch 2
        ≠ CBlock.buildMerkleTree xorHash ⟨CBlockHeader.null, [default, default, default]⟩ := by
  obtain ⟨branch, hbranch, -, hother⟩ := checkMerkleBranch_verifies xorHash
    ⟨CBlockHeader.null, [default, default, default]⟩ 2 (by decide)
  refine ⟨branch, hbranch, hother ?_ ?_⟩
  · intro s a a' h
    simp only [hashNode_xorHash] at h
    exact (BitVec.xor_left_inj s).mp h
  · intro s a a' h
    simp only [hashNode_xorHash] at h
    exact (BitVec.xor_right_inj s).mp h

end Dacrs
