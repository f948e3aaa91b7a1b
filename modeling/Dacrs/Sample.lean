import Dacrs.Execute

/-!
# A small node to evaluate on

Concrete configuration and stand-ins for the libraries, used where a statement is about one
explicit input.  The hash is a polynomial of the bytes, a signature is the signed hash
followed by the signer's key bytes, and no contract is ever run.
-/

open Codec (Bytes)

namespace Dacrs.Sample

def polynomial (b : Bytes) : Nat := b.foldl (fun acc x => (acc * 263 + x.toNat + 1) % 2 ^ 256) 7

def crypto : Crypto where
  Hash b := BitVec.ofNat 256 (polynomial b)
  Hash160 b := BitVec.ofNat 160 (polynomial b)
  setPubKey _ := true
  verify pk h sig := sig == uint256Codec.write h ++ pk

def cfg : SysCfg where
  regTest := false
  testNet := false
  nIntervalPos := 1440
  nTxCacheHeight := 500
  nBlockSizeForBurn := 50
  llTargetSpacing := 60
  llTargetTimespan := 1800
  bOutPut := false
  bAddressToTx := false
  bTxIndex := true
  cHashGenesisBlock := 1
  bnProofOfWorkLimit := BitVec.ofNat 256 (2 ^ 246 - 1)
  pubkeyAddressPrefix := [0]

/-- A node whose block files and active chain are given. -/
def nodeOn (disk : Disk) (chainActive : PBlockIndex) : Node where
  cfg := cfg
  cr := crypto
  vm _ := none
  luaSyntaxcheck _ := true
  disk := disk
  writes := ⟨fun _ _ => .ok 0, fun _ _ => true, fun _ => true⟩
  chainActive := chainActive
  mapBlockIndex h := (chainActive.tails.find? fun l => (l.head?.map CBlockIndex.hashBlock) == some h)
  adjustedTime := 2000000000

def node : Node := nodeOn ⟨fun _ => none, fun _ => none⟩ []

/-- What a contract is registered with: an 8051 program of 21 bytes, and no memo. -/
def programBytes : Bytes := 21 :: 2 :: List.replicate 21 0

/-- A valid public key told apart by its second byte. -/
def pubKey (n : UInt8) : CPubKey := CPubKey.ofBytes (2 :: n :: List.replicate 31 0)

def keyId (n : UInt8) : CKeyID := (pubKey n).getKeyID crypto

/-- A registered account with ten coins. -/
def holder : CAccount :=
  { CAccount.fresh (keyId 5) with
    cRegID := ⟨50, 1⟩
    cPublicKey := pubKey 5
    ullValues := 1000000000 }

/-- A view that holds the given accounts, each under its own key id. -/
def viewOf (accounts : List CAccount) (regIds : List (CRegID × CKeyID)) (best : Uint256) :
    CAccountViewCache :=
  let base : CAccountViewCache := ⟨∅, ∅, best, fun _ _ h => by simp at h, fun _ _ h => by simp at h⟩
  let v := accounts.foldl (fun v a => v.setAccountKey a.cKeyID a) base
  regIds.foldl (fun v p => v.setKeyId p.1 p.2) v

def scriptsOf (records : List (Bytes × Bytes)) : CScriptDBViewCache :=
  records.foldl (fun s p => s.setData p.1 p.2) ⟨∅, fun _ _ h => by simp at h⟩

theorem viewOf_wellKeyed (accounts : List CAccount) (regIds : List (CRegID × CKeyID))
    (best : Uint256) : (viewOf accounts regIds best).WellKeyed := by
  have hacc : ∀ (l : List CAccount) (v : CAccountViewCache), v.WellKeyed →
      (l.foldl (fun v a => v.setAccountKey a.cKeyID a) v).WellKeyed := by
    intro l
    induction l with
    | nil => exact fun v hv => hv
    | cons a l ih => exact fun v hv => ih _ (hv.setAccountKey a)
  have hids : ∀ (l : List (CRegID × CKeyID)) (v : CAccountViewCache), v.WellKeyed →
      (l.foldl (fun v p => v.setKeyId p.1 p.2) v).WellKeyed := by
    intro l
    induction l with
    | nil => exact fun v hv => hv
    | cons p l ih => exact fun v hv => ih (v.setKeyId p.1 p.2) hv
  refine hids regIds _ (hacc accounts _ fun k a h => ?_)
  simp at h

theorem scriptsOf_nil_countsCanonical : (scriptsOf []).CountsCanonical where
  scripts := ⟨0, by decide, by decide⟩
  items _ := ⟨0, by decide, by simp [scriptsOf, CScriptDBViewCache.oldValue,
    CScriptDBViewCache.getData, CScriptDBViewCache.countRecord]⟩

end Dacrs.Sample
