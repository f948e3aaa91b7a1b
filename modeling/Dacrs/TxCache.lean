import Dacrs.Block
import Dacrs.Lib.Store

/-!
# The transaction cache

`CTransactionDBCache` remembers, for the last blocks of the chain, which transactions each of
them holds, so that a transaction is not confirmed twice.  A block whose list has been emptied
counts as removed; here its entry is absent.  The database below the cache holds what the cache
has flushed and is not searched separately.
-/

open Codec (Bytes)

namespace Dacrs

@[ext] structure CTransactionDBCache where
  mapTxHashByBlockHash : Store Uint256 (List Uint256)
  nonempty : ∀ k l, mapTxHashByBlockHash.lookup k = some l → l ≠ []

namespace CTransactionDBCache

def empty : CTransactionDBCache := ⟨∅, fun _ _ h => Store.of_lookup_empty h⟩

/-- An empty list removes its block. -/
def liveHashes (l : List Uint256) : Option (List Uint256) := if l = [] then none else some l

theorem liveHashes_ne {l m : List Uint256} (h : liveHashes l = some m) : m ≠ [] := by
  unfold liveHashes at h
  split at h
  · cases h
  · next hne =>
    cases h
    exact hne

theorem liveHashes_of_ne {l : List Uint256} (h : l ≠ []) : liveHashes l = some l := if_neg h

section
variable (c : CTransactionDBCache)

/-- The write both operations are made of. -/
def putHashes (k : Uint256) (l : List Uint256) : CTransactionDBCache where
  mapTxHashByBlockHash := c.mapTxHashByBlockHash.put k (liveHashes l)
  nonempty j m h := by
    rw [Store.lookup_put] at h
    split at h
    · exact liveHashes_ne h
    · exact c.nonempty j m h

/-- `IsInMap`. -/
def isInMap (k : Uint256) : Bool := k != 0 && (c.mapTxHashByBlockHash.lookup k).isSome

/-- What `IsContainTx` returns is not `uint256()`: a block lists the transaction, and the first
one in key order is not the one under the zero hash. -/
def isContainTx (cTxHash : Uint256) : Bool :=
  c.mapTxHashByBlockHash.any (fun k l => k != 0 && l.contains cTxHash) &&
    !((c.mapTxHashByBlockHash.lookup 0).getD []).contains cTxHash

variable (Hash : Bytes → Uint256) (b : CBlock)

/-- `AddBlockToCache`; it never fails. -/
def addBlockToCache : CTransactionDBCache :=
  c.putHashes (b.getHash Hash) (b.vptx.map (CBaseTransaction.getHash Hash))

/-- `DeleteBlockFromCache`; `none` is `return false`. -/
def deleteBlockFromCache : Option CTransactionDBCache :=
  if c.isInMap (b.getHash Hash) then some (c.putHashes (b.getHash Hash) []) else none

/-! ## Taking a block out again -/

/-- What the cache holds of a block. -/
def lists : Option (List Uint256) := c.mapTxHashByBlockHash.lookup (b.getHash Hash)

variable {c Hash b}

theorem addBlockToCache_lookup (hne : b.vptx ≠ []) :
    (c.addBlockToCache Hash b).mapTxHashByBlockHash
      = c.mapTxHashByBlockHash.put (b.getHash Hash)
          (some (b.vptx.map (CBaseTransaction.getHash Hash))) := by
  show c.mapTxHashByBlockHash.put _ (liveHashes _) = _
  rw [liveHashes_of_ne]
  intro h
  exact hne (List.map_eq_nil_iff.mp h)

/-- Deleting succeeds exactly on a block that is there. -/
theorem deleteBlockFromCache_eq_some_iff {c' : CTransactionDBCache} :
    c.deleteBlockFromCache Hash b = some c' ↔
      b.getHash Hash ≠ 0 ∧ (c.lists Hash b).isSome ∧
        c'.mapTxHashByBlockHash = c.mapTxHashByBlockHash.put (b.getHash Hash) none := by
  unfold deleteBlockFromCache isInMap lists
  constructor
  · intro h
    split at h
    · next hin =>
      rw [Bool.and_eq_true, bne_iff_ne] at hin
      cases h
      exact ⟨hin.1, hin.2, rfl⟩
    · cases h
  · rintro ⟨h0, hs, hm⟩
    rw [if_pos (Bool.and_eq_true_iff.mpr ⟨bne_iff_ne.mpr h0, hs⟩)]
    congr 1
    exact CTransactionDBCache.ext hm.symm

end

end CTransactionDBCache

end Dacrs
