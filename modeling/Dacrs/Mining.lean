import Dacrs.ConnectSpec
import Dacrs.SampleChain

/-!
# Completing a block

`CreatePosTx` looks, among the accounts the wallet has keys for, for one whose hash meets the target,
names it in the coinbase and signs the block.  The wallet is a parameter: its key ids and its
signatures.

`verifyPosTx_created` says that a completed block passes `VerifyPosTx`, and `verifyPosTx_needRunTx`
what the run that `VerifyPosTx` may be asked for adds to the check of the state it leads to.
-/

open Codec (Bytes)

namespace Dacrs

/-! ## The wallet -/

structure CWallet where
  /-- `GetKeys(…, true)`, in the order of the set -/
  getKeys : List CKeyID
  /-- `Sign`; the flag asks for the miner key -/
  sign : CKeyID → Uint256 → Bool → Option Bytes

namespace CBlock

section
variable (node : Node) (wallet : CWallet) (setCreateKey : List CKeyID) (b : CBlock)
  (view tip : CAccountViewCache)

/-! ## The accounts -/

/-- An account that may mine the block, with its coin days brought up to the block's height. -/
def minerAccount (keyid : CKeyID) : Option CAccount :=
  if setCreateKey ≠ [] ∧ keyid ∉ setCreateKey then none
  else match view.getAccount node.cr (.keyID keyid) with
    | none => none
    | some cAccountInfo =>
      if cAccountInfo.isRegister node.cr ∧ canMine node.cfg cAccountInfo b.height then
        some (cAccountInfo.upDateCoinDay node.cfg b.height)
      else none

/-- `ST_AccountComparator`: the most coin days first, and a new account before its equals. -/
def insertAccount (a : CAccount) : List CAccount → List CAccount
  | [] => [a]
  | c :: l => if c.ullCoinDay ≤ a.ullCoinDay then a :: c :: l else c :: insertAccount a l

/-- `setAcctInfo`. -/
def minerAccounts : List CAccount :=
  (wallet.getKeys.filterMap (minerAccount node setCreateKey b view)).foldl
    (fun setAcctInfo a => insertAccount a setAcctInfo) []

/-! ## The search -/

/-- The record that is hashed, for a previous block and a nonce. -/
def createInfo (pPrevIndex : CBlockIndex) (cAccountItem : CAccount) (nNonce : UInt32) : PosTxInfo where
  nVersion := b.nVersion
  cHashPrevBlock := pPrevIndex.hashBlock
  cHashMerkleRoot := node.cr.Hash cAccountItem.hashPreimage
  ullValues := cAccountItem.ullValues
  unTime := b.unTime
  unNonce := nNonce
  unHeight := b.unHeight
  llFuel := CBlockHeader.fuelNarrowed b.llFuel
  nFuelRate := b.nFuelRate

/-- The block with its coinbase, its merkle root and its hash filled in. -/
def withMiner (pPrevIndex : CBlockIndex) (nNonce : UInt32) (prtx : CRewardTransaction)
    (rest : List CBaseTransaction) (cRegId : CRegID) (curhash : Uint256) : CBlock :=
  let b := { b with
    unNonce := nNonce
    vptx := .reward { prtx with cAccount := .regID cRegId, nHeight := pPrevIndex.nHeight + 1 } :: rest }
  { b with cHashMerkleRoot := b.buildMerkleTree node.cr.Hash, cHashPos := curhash }

/-- One turn of the search.  Whatever an unsuccessful turn left in the block is overwritten by the
one that succeeds. -/
def tryNonce (pPrevIndex : CBlockIndex) (prtx : CRewardTransaction) (rest : List CBaseTransaction)
    (cAccountItem : CAccount) (nNonce : UInt32) : Option CBlock :=
  let adjusthash := getAdjustHash node.cfg (setCompact b.unBits) cAccountItem.ullCoinDay
  let curhash := (createInfo node b pPrevIndex cAccountItem nNonce).getHash node.cr.Hash
  if curhash ≤ adjusthash then
    match tip.getRegId node.cr (.keyID cAccountItem.cKeyID) with
    | none => none
    | some cRegId =>
      let b := b.withMiner node pPrevIndex nNonce prtx rest cRegId curhash
      (wallet.sign cAccountItem.cKeyID (node.cr.Hash b.toCBlockHeader.signaturePreimage)
        cAccountItem.cMinerPKey.isValid).map fun vSign => { b with vchSignature := vSign }
  else none

def tryAccount (pPrevIndex : CBlockIndex) (prtx : CRewardTransaction) (rest : List CBaseTransaction)
    (cAccountItem : CAccount) : Option CBlock :=
  if cAccountItem.ullCoinDay = 0 then none
  else (List.range blockMaxNonce.toNat).findSome? fun nNonce =>
    tryNonce node wallet b tip pPrevIndex prtx rest cAccountItem (UInt32.ofNat nNonce)

/-- `CreatePosTx`: the block as it is completed.  `tip` is `*g_pAccountViewTip`. -/
def createPosTx (pPrevIndex : CBlockIndex) : Exec CBlock :=
  match node.chainActive, b.vptx with
  | [], _ => Exec.throw "g_cChainActive.Tip() is NULL"
  | q :: _, .reward prtx :: rest =>
    if UInt32.ofInt (q.nHeight + 1) ≠ b.unHeight then Exec.returnFalse
    else Exec.ofOption
      ((minerAccounts node wallet setCreateKey b view).findSome?
        (tryAccount node wallet b tip pPrevIndex prtx rest)) Exec.returnFalse
  | _ :: _, _ => Exec.throw "vptx[0] is no CRewardTransaction"

end

/-! ## What a completed block is made of -/

section
variable {node : Node} {wallet : CWallet} {setCreateKey : List CKeyID} {b b' : CBlock}
  {view tip : CAccountViewCache} {a c : CAccount} {l : List CAccount} {pPrevIndex : CBlockIndex}

theorem mem_insertAccount : c ∈ insertAccount a l ↔ c = a ∨ c ∈ l := by
  induction l with
  | nil => simp [insertAccount]
  | cons d l ih =>
    unfold insertAccount
    split
    · rw [List.mem_cons]
    · rw [List.mem_cons, ih, List.mem_cons, or_left_comm]

theorem mem_minerAccounts (h : a ∈ minerAccounts node wallet setCreateKey b view) :
    ∃ keyid ∈ wallet.getKeys, minerAccount node setCreateKey b view keyid = some a := by
  have hfold : ∀ (m l : List CAccount), a ∈ m.foldl (fun l a => insertAccount a l) l → a ∈ m ∨ a ∈ l := by
    intro m
    induction m with
    | nil => exact fun l h => .inr h
    | cons c m ih =>
      intro l h
      rcases ih _ h with hm | hl
      · exact .inl (List.mem_cons_of_mem c hm)
      · rcases mem_insertAccount.mp hl with rfl | hl
        · exact .inl List.mem_cons_self
        · exact .inr hl
  rcases hfold _ _ h with hm | hl
  · exact List.mem_filterMap.mp hm
  · cases hl

/-- An account that was considered is stored, registered and able to mine. -/
theorem minerAccount_eq_some {keyid : CKeyID}
    (h : minerAccount node setCreateKey b view keyid = some c) :
    ∃ a, view.accounts.lookup keyid = some a ∧ a.isRegister node.cr = true ∧
      canMine node.cfg a b.height = true ∧ c = a.upDateCoinDay node.cfg b.height := by
  unfold minerAccount at h
  split at h
  · cases h
  · cases ha : view.getAccount node.cr (.keyID keyid) with
    | none =>
      rw [ha] at h
      cases h
    | some a =>
      rw [ha] at h
      dsimp only at h
      split at h
      · next hc => exact ⟨a, ha, hc.1, hc.2, (Option.some.inj h).symm⟩
      · cases h

/-- The turn that succeeded. -/
theorem createPosTx_ok (h : createPosTx node wallet setCreateKey b view tip pPrevIndex = .ok b') :
    ∃ prtx rest a c nNonce, b.vptx = .reward prtx :: rest ∧
      (∃ keyid, view.accounts.lookup keyid = some a) ∧ a.isRegister node.cr = true ∧
      canMine node.cfg a b.height = true ∧ c = a.upDateCoinDay node.cfg b.height ∧
      nNonce < blockMaxNonce.toNat ∧
      tryNonce node wallet b tip pPrevIndex prtx rest c (UInt32.ofNat nNonce) = some b' := by
  unfold createPosTx at h
  split at h
  · cases h
  · next q _ prtx rest hchain htxs =>
    split at h
    · cases h
    · rw [Exec.ofOption_eq_ok Exec.fails_returnFalse] at h
      obtain ⟨c, hc, hfound⟩ := List.exists_of_findSome?_eq_some h
      obtain ⟨keyid, -, hkey⟩ := mem_minerAccounts hc
      obtain ⟨a, hstored, hreg, hcan, rfl⟩ := minerAccount_eq_some hkey
      unfold tryAccount at hfound
      split at hfound
      · cases hfound
      · obtain ⟨nNonce, hn, htry⟩ := List.exists_of_findSome?_eq_some hfound
        exact ⟨prtx, rest, a, _, nNonce, htxs, ⟨keyid, hstored⟩, hreg, hcan, rfl,
          List.mem_range.mp hn, htry⟩
  · cases h

/-- What the block is, and whose. -/
theorem tryNonce_eq_some {prtx : CRewardTransaction} {rest : List CBaseTransaction} {nNonce : UInt32}
    (h : tryNonce node wallet b tip pPrevIndex prtx rest c nNonce = some b') :
    ∃ r vSign, tip.getRegId node.cr (.keyID c.cKeyID) = some r ∧
      (createInfo node b pPrevIndex c nNonce).getHash node.cr.Hash
        ≤ getAdjustHash node.cfg (setCompact b.unBits) c.ullCoinDay ∧
      wallet.sign c.cKeyID (node.cr.Hash b'.toCBlockHeader.signaturePreimage) c.cMinerPKey.isValid
        = some vSign ∧
      b' = { b.withMiner node pPrevIndex nNonce prtx rest r
              ((createInfo node b pPrevIndex c nNonce).getHash node.cr.Hash) with
              vchSignature := vSign } := by
  unfold tryNonce at h
  dsimp only at h
  split at h
  · next hle =>
    cases hr : tip.getRegId node.cr (.keyID c.cKeyID) with
    | none =>
      rw [hr] at h
      cases h
    | some r =>
      rw [hr] at h
      obtain ⟨vSign, hsign, rfl⟩ := Option.map_eq_some_iff.mp h
      exact ⟨r, vSign, rfl, hle, hsign, rfl⟩
  · cases h

/-! ## What `VerifyPosTx` asks -/

/-- The reward has the version its height asks for. -/
def RewardVersion (b : CBlock) (prtx : CRewardTransaction) : Prop :=
  updateTxVersion2Height < b.unHeight.toNat → prtx.nVersion = txVersion2

theorem checkPosHash_eq_ok : b.checkPosHash node a = .ok () ↔
    (a.upDateCoinDay node.cfg b.height).ullCoinDay ≠ 0 ∧
      b.cHashPos = (b.posTxInfo node.cr.Hash (a.upDateCoinDay node.cfg b.height)).getHash node.cr.Hash ∧
      b.cHashPos ≤ getAdjustHash node.cfg (setCompact b.unBits)
        (a.upDateCoinDay node.cfg b.height).ullCoinDay := by
  unfold checkPosHash
  simp only [Except.bind_eq_ok, Exec.require_eq_ok Exec.fails_returnFalse]
  constructor
  · rintro ⟨-, hpos, -, hhash, hle⟩
    exact ⟨hpos, hhash, by rw [hhash]; exact hle⟩
  · rintro ⟨hpos, hhash, hle⟩
    exact ⟨(), hpos, (), hhash, by rw [← hhash]; exact hle⟩

theorem verifyPosTx_eq_ok {vs : Views} {cache : CTransactionDBCache} {bNeedRunTx : Bool} :
    b.verifyPosTx node vs cache bNeedRunTx = .ok () ↔
      b.unNonce ≤ blockMaxNonce ∧ b.cHashMerkleRoot = b.buildMerkleTree node.cr.Hash ∧
        ∃ prtx a c, b.rewardTx = .ok prtx ∧ vs.view.getAccount node.cr prtx.cAccount = some a ∧
          b.minerSigned node.cr a = true ∧ b.RewardVersion prtx ∧
          b.posAccount node prtx vs cache bNeedRunTx a = .ok c ∧ b.checkPosHash node c = .ok () := by
  unfold verifyPosTx RewardVersion
  simp only [Except.bind_eq_ok, Exec.require_eq_ok Exec.fails_returnFalse,
    Exec.ofOption_eq_ok Exec.fails_returnFalse, not_and_not_right]
  constructor
  · rintro ⟨-, hnonce, -, hmerkle, prtx, hprtx, a, ha, -, hsigned, -, hver, c, hc, hhash⟩
    exact ⟨hnonce, hmerkle, prtx, a, c, hprtx, ha, hsigned, hver, hc, hhash⟩
  · rintro ⟨hnonce, hmerkle, prtx, a, c, hprtx, ha, hsigned, hver, hc, hhash⟩
    exact ⟨(), hnonce, (), hmerkle, prtx, hprtx, a, ha, (), hsigned, (), hver, c, hc, hhash⟩

/-! ## A completed block passes -/

/-- The wallet signs for an account with one of the account's own keys. -/
def SignsFor (node : Node) (wallet : CWallet) (view : CAccountViewCache) : Prop :=
  ∀ keyid a hash vSign, view.accounts.lookup keyid = some a → a.isRegister node.cr = true →
    wallet.sign a.cKeyID hash a.cMinerPKey.isValid = some vSign →
      checkSignScript node.cr hash vSign a.cPublicKey = true ∨
        checkSignScript node.cr hash vSign a.cMinerPKey = true

/-- The registration id of the tip's account leads to the same account here. -/
def TipAgrees (node : Node) (tip view : CAccountViewCache) : Prop :=
  ∀ keyid a r, view.accounts.lookup keyid = some a →
    tip.getRegId node.cr (.keyID a.cKeyID) = some r → view.getAccount node.cr (.regID r) = some a

/-- A template on top of the given block, with a coinbase of the current version. -/
structure TemplateOn (pPrevIndex : CBlockIndex) (b : CBlock) : Prop where
  prev : b.cHashPrevBlock = pPrevIndex.hashBlock
  version : ∀ prtx, b.rewardTx = .ok prtx → b.RewardVersion prtx

theorem verifyPosTx_created (hsigns : SignsFor node wallet view) (htip : TipAgrees node tip view)
    (ht : TemplateOn pPrevIndex b)
    (h : createPosTx node wallet setCreateKey b view tip pPrevIndex = .ok b')
    (scriptDB : CScriptDBViewCache) (cache : CTransactionDBCache) :
    b'.verifyPosTx node ⟨view, scriptDB⟩ cache false = .ok () := by
  obtain ⟨prtx, rest, a, c, nNonce, htxs, ⟨keyid, ha⟩, hreg, hcan, rfl, hn, htry⟩ := createPosTx_ok h
  obtain ⟨r, vSign, hr, hle, hsign, hb'⟩ := tryNonce_eq_some htry
  have hid := CAccount.upDateCoinDay_sameIdentity node.cfg a b.height
  rw [hid.cKeyID] at hr hsign
  rw [hid.cMinerPKey] at hsign
  have hpreimage : b'.height = b.height ∧ b'.unBits = b.unBits ∧
      (∀ e, b'.posTxInfo node.cr.Hash e = createInfo node b pPrevIndex e (UInt32.ofNat nNonce)) := by
    rw [hb']
    refine ⟨rfl, rfl, fun e => ?_⟩
    unfold posTxInfo createInfo
    rw [← ht.prev]
    rfl
  have hpos : b'.cHashPos = (createInfo node b pPrevIndex (a.upDateCoinDay node.cfg b.height)
      (UInt32.ofNat nNonce)).getHash node.cr.Hash := by
    rw [hb']
    rfl
  rw [verifyPosTx_eq_ok]
  refine ⟨?_, ?_, { prtx with cAccount := .regID r, nHeight := pPrevIndex.nHeight + 1 }, a, a, ?_,
    htip keyid a r ha hr, ?_, ?_, rfl, ?_⟩
  · rw [hb']
    show UInt32.ofNat nNonce ≤ blockMaxNonce
    have hmax : blockMaxNonce.toNat = 1000 := rfl
    rw [UInt32.le_iff_toNat_le, UInt32.toNat_ofNat']
    omega
  · rw [hb']
    rfl
  · rw [hb']
    rfl
  · have hsig : b'.vchSignature = vSign := by rw [hb']
    unfold minerSigned
    rw [hsig, Bool.or_eq_true]
    exact hsigns keyid a _ vSign ha hreg hsign
  · have hver := ht.version prtx (by unfold rewardTx; rw [htxs])
    rw [hb']
    exact hver
  · rw [checkPosHash_eq_ok, hpreimage.1, hpreimage.2.1, hpreimage.2.2, hpos]
    refine ⟨?_, rfl, hle⟩
    unfold canMine at hcan
    rw [Bool.and_eq_true, decide_eq_true_eq] at hcan
    exact hcan.1

end

/-! ## Executing a block's transactions -/

section
variable (node : Node) (b : CBlock)

/-- The transactions in order, with `ExecuteTx` and nothing else; the run steps and the fuel of each. -/
def executeTxs : List (CBaseTransaction × ℕ) → Views → Exec (Views × List (UInt64 × UInt64))
  | [], vs => .ok (vs, [])
  | item :: rest, vs => do
    let e ← item.1.executeTx node item.2 b.height b.nFuelRate vs
    let llFuel ← getFuel node.chainActive item.1.chTxType e.ullRunStep b.nFuelRate
    let (vs, burnt) ← executeTxs rest e.views
    return (vs, (e.ullRunStep, llFuel) :: burnt)

/-- `ullTotalRunStep`, from a number of steps on. -/
def totalRunStep (ullTotalRunStep : UInt64) (burnt : List (UInt64 × UInt64)) : UInt64 :=
  burnt.foldl (fun ullTotalRunStep e => ullTotalRunStep + e.1) ullTotalRunStep

/-- `llTotalFuel`. -/
def totalFuel (llTotalFuel : Int64) (burnt : List (UInt64 × UInt64)) : Int64 :=
  burnt.foldl (fun llTotalFuel e => llTotalFuel + e.2.toInt64) llTotalFuel

/-- The sum of the run steps never passes MAX_BLOCK_RUN_STEP on the way. -/
def StepsWithin (burnt : List (UInt64 × UInt64)) : Prop :=
  ∀ n, n < burnt.length → totalRunStep 0 (burnt.take (n + 1)) ≤ maxBlockRunStep

/-- Nothing the block executes is in the transaction cache. -/
def NotConfirmed (cache : CTransactionDBCache) : Prop :=
  ∀ item ∈ b.otherTxs, ¬ cache.isContainTx (item.1.getHash node.cr.Hash)

end

section
variable {node : Node} {b : CBlock} {cache : CTransactionDBCache} {l : List (CBaseTransaction × ℕ)}
  {vs : Views}

theorem quietly_eq_ok {α : Type} {x : Exec α} {a : α} : quietly x = .ok a ↔ x = .ok a := by
  unfold quietly
  split
  · constructor
    · intro h
      cases h
    · intro h
      cases h
  · rfl

/-- The loop of `VerifyPosTx` is the plain execution, with its two checks on the way. -/
theorem posRunTx_foldlM {ullTotalRunStep : UInt64} {llTotalFuel : Int64} {r : Views × UInt64 × Int64} :
    l.foldlM (b.posRunTx node cache) (vs, ullTotalRunStep, llTotalFuel) = .ok r ↔
      ∃ burnt, executeTxs node b l vs = .ok (r.1, burnt) ∧
        (∀ item ∈ l, ¬ cache.isContainTx (item.1.getHash node.cr.Hash)) ∧
        (∀ n, n < burnt.length →
          totalRunStep ullTotalRunStep (burnt.take (n + 1)) ≤ maxBlockRunStep) ∧
        r.2 = (totalRunStep ullTotalRunStep burnt, totalFuel llTotalFuel burnt) := by
  induction l generalizing vs ullTotalRunStep llTotalFuel with
  | nil =>
    constructor
    · intro h
      obtain rfl := Except.ok.inj h
      exact ⟨[], rfl, by simp, by simp, rfl⟩
    · rintro ⟨burnt, hrun, -, -, hr⟩
      obtain ⟨h1, rfl⟩ := Prod.mk.inj (Except.ok.inj hrun)
      obtain ⟨r1, r2⟩ := r
      obtain rfl : vs = r1 := h1
      obtain rfl : r2 = _ := hr
      rfl
  | cons item l ih =>
    rw [List.foldlM_cons]
    unfold posRunTx executeTxs
    simp only [Except.bind_eq_ok, Exec.require_eq_ok Exec.fails_returnFalse, quietly_eq_ok,
      Except.pure_eq_ok, Except.ok.injEq]
    constructor
    · rintro ⟨st, ⟨-, hcache, e, he, -, hstep, llFuel, hfuel, rfl⟩, hrest⟩
      obtain ⟨burnt, hrun, hcaches, hsteps, hr⟩ := ih.mp hrest
      refine ⟨(e.ullRunStep, llFuel) :: burnt, ⟨e, he, llFuel, hfuel, (r.1, burnt), hrun, rfl⟩, ?_, ?_, hr⟩
      · intro item' hmem
        rcases List.mem_cons.mp hmem with rfl | hmem
        · exact hcache
        · exact hcaches item' hmem
      · intro n hn
        cases n with
        | zero => exact hstep
        | succ n => exact hsteps n (Nat.lt_of_succ_lt_succ hn)
    · rintro ⟨burnt, ⟨e, he, llFuel, hfuel, ⟨vs', burnt'⟩, hrun, hburnt⟩, hcaches, hsteps, hr⟩
      obtain ⟨rfl, rfl⟩ := Prod.mk.inj hburnt
      refine ⟨(e.views, ullTotalRunStep + e.ullRunStep, llTotalFuel + llFuel.toInt64),
        ⟨(), hcaches item List.mem_cons_self, e, he, (), hsteps 0 (Nat.succ_pos _), llFuel, hfuel, rfl⟩,
        ih.mpr ⟨burnt', hrun, fun item' hmem => hcaches item' (List.mem_cons_of_mem item hmem), ?_, hr⟩⟩
      intro n hn
      exact hsteps (n + 1) (Nat.succ_lt_succ hn)

/-- Executing the block leaves the public keys of its miner's account as they were. -/
def MinerKeysKept (node : Node) (b : CBlock) (vs : Views) : Prop :=
  ∀ vs' burnt prtx, executeTxs node b b.otherTxs vs = .ok (vs', burnt) → b.rewardTx = .ok prtx →
    (vs.view.getAccount node.cr prtx.cAccount).map (fun a => (a.cPublicKey, a.cMinerPKey)) =
      (vs'.view.getAccount node.cr prtx.cAccount).map fun a => (a.cPublicKey, a.cMinerPKey)

theorem posRun_eq_ok {prtx : CRewardTransaction} {c : CAccount} :
    b.posRun node prtx vs cache = .ok c ↔
      ∃ vs' burnt, executeTxs node b b.otherTxs vs = .ok (vs', burnt) ∧ b.NotConfirmed node cache ∧
        StepsWithin burnt ∧ totalFuel 0 burnt = CBlockHeader.fuelNarrowed b.llFuel ∧
        vs'.view.getAccount node.cr prtx.cAccount = some c ∧ canMine node.cfg c b.height = true := by
  unfold posRun
  simp only [Except.bind_eq_ok, Exec.require_eq_ok Exec.fails_returnFalse,
    Exec.ofOption_eq_ok Exec.fails_returnFalse]
  constructor
  · rintro ⟨⟨vs', steps, fuel⟩, hrun, -, hfuel, c', hc', -, hcan, heq⟩
    obtain ⟨burnt, hexec, hcache, hsteps, hr⟩ := posRunTx_foldlM.mp hrun
    obtain ⟨rfl, rfl⟩ := Prod.mk.inj hr
    obtain rfl := Except.ok.inj heq
    exact ⟨vs', burnt, hexec, hcache, hsteps, hfuel, hc', hcan⟩
  · rintro ⟨vs', burnt, hexec, hcache, hsteps, hfuel, hc, hcan⟩
    exact ⟨(vs', totalRunStep 0 burnt, totalFuel 0 burnt),
      posRunTx_foldlM.mpr ⟨burnt, hexec, hcache, hsteps, rfl⟩, (), hfuel, c, hc, (), hcan, rfl⟩

theorem minerSigned_congr {a c : CAccount}
    (h : (a.cPublicKey, a.cMinerPKey) = (c.cPublicKey, c.cMinerPKey)) :
    b.minerSigned node.cr a = b.minerSigned node.cr c := by
  obtain ⟨h1, h2⟩ := Prod.mk.inj h
  unfold minerSigned
  rw [h1, h2]

/-- The verification with a run is the execution, the checks the run makes on the way, and the
verification of the state it leads to. -/
theorem verifyPosTx_needRunTx (hkeys : MinerKeysKept node b vs) :
    b.verifyPosTx node vs cache true = .ok () ↔
      ∃ vs' burnt, executeTxs node b b.otherTxs vs = .ok (vs', burnt) ∧
        totalFuel 0 burnt = CBlockHeader.fuelNarrowed b.llFuel ∧
        b.verifyPosTx node vs' cache false = .ok () ∧
        b.NotConfirmed node cache ∧ StepsWithin burnt ∧
        ∃ prtx c, b.rewardTx = .ok prtx ∧ vs'.view.getAccount node.cr prtx.cAccount = some c ∧
          canMine node.cfg c b.height = true := by
  rw [verifyPosTx_eq_ok]
  constructor
  · rintro ⟨hnonce, hmerkle, prtx, a, c, hprtx, ha, hsigned, hver, hrun, hhash⟩
    obtain ⟨vs', burnt, hexec, hcache, hsteps, hfuel, hc, hcan⟩ := posRun_eq_ok.mp hrun
    have hkept := hkeys vs' burnt prtx hexec hprtx
    rw [ha, hc] at hkept
    refine ⟨vs', burnt, hexec, hfuel, ?_, hcache, hsteps, prtx, c, hprtx, hc, hcan⟩
    rw [verifyPosTx_eq_ok]
    refine ⟨hnonce, hmerkle, prtx, c, c, hprtx, hc, ?_, hver, rfl, hhash⟩
    rw [← minerSigned_congr (Option.some.inj hkept)]
    exact hsigned
  · rintro ⟨vs', burnt, hexec, hfuel, hpost, hcache, hsteps, prtx, c, hprtx, hc, hcan⟩
    obtain ⟨hnonce, hmerkle, prtx', c', d, hprtx', hc', hsigned, hver, hd, hhash⟩ :=
      verifyPosTx_eq_ok.mp hpost
    rw [hprtx] at hprtx'
    obtain rfl := Except.ok.inj hprtx'
    rw [hc] at hc'
    obtain rfl := Option.some.inj hc'
    obtain rfl := Except.ok.inj hd
    have hkept := hkeys vs' burnt prtx hexec hprtx
    rw [hc] at hkept
    obtain ⟨a, ha, hak⟩ := Option.map_eq_some_iff.mp hkept
    refine ⟨hnonce, hmerkle, prtx, a, c, hprtx, ha, ?_, hver, ?_, hhash⟩
    · rw [minerSigned_congr hak]
      exact hsigned
    · exact posRun_eq_ok.mpr ⟨vs', burnt, hexec, hcache, hsteps, hfuel, hc, hcan⟩

end

/-- Proof-of-stake admission: what is created is verified, and the two ways to verify a block
differ by the run and its checks only. -/
theorem pos_admission (node : Node) :
    (∀ (wallet : CWallet) (setCreateKey : List CKeyID) (b b' : CBlock) (view tip : CAccountViewCache)
        (pPrevIndex : CBlockIndex) (scriptDB : CScriptDBViewCache) (cache : CTransactionDBCache),
      SignsFor node wallet view → TipAgrees node tip view → TemplateOn pPrevIndex b →
      createPosTx node wallet setCreateKey b view tip pPrevIndex = .ok b' →
        b'.verifyPosTx node ⟨view, scriptDB⟩ cache false = .ok ()) ∧
    ∀ (b : CBlock) (vs : Views) (cache : CTransactionDBCache), MinerKeysKept node b vs →
      (b.verifyPosTx node vs cache true = .ok () ↔
        ∃ vs' burnt, executeTxs node b b.otherTxs vs = .ok (vs', burnt) ∧
          totalFuel 0 burnt = CBlockHeader.fuelNarrowed b.llFuel ∧
          b.verifyPosTx node vs' cache false = .ok () ∧
          b.NotConfirmed node cache ∧ StepsWithin burnt ∧
          ∃ prtx c, b.rewardTx = .ok prtx ∧ vs'.view.getAccount node.cr prtx.cAccount = some c ∧
            canMine node.cfg c b.height = true) :=
  ⟨fun _ _ _ _ _ _ _ scriptDB cache hsigns htip ht h =>
      verifyPosTx_created hsigns htip ht h scriptDB cache,
    fun _ _ _ hkeys => verifyPosTx_needRunTx hkeys⟩

/-! ## On the small chain -/

open Sample

/-- A wallet with the miner's key. -/
def sampleWallet : CWallet where
  getKeys := [keyId 6]
  sign k h _ := if k = keyId 6 then some (uint256Codec.write h ++ (pubKey 6).vch) else none

/-- The first block after genesis, still without a miner. -/
def sampleTemplate : CBlock :=
  { firstHeader 0 with vptx := [.reward ⟨2, .regID CRegID.null, 1000000000, 0⟩] }

def sampleView : CAccountViewCache := viewOf [miner] [(⟨0, 1⟩, keyId 6)] 0

/-- The only stored account. -/
theorem sampleView_lookup {k : CKeyID} {a : CAccount} (h : sampleView.accounts.lookup k = some a) :
    a = miner := by
  have hput : sampleView.accounts = (∅ : Store CKeyID CAccount).put miner.cKeyID (some miner) := by
    refine Finmap.ext_lookup fun j => ?_
    rfl
  rw [hput, Store.lookup_put] at h
  split at h
  · exact (Option.some.inj h).symm
  · exact Store.of_lookup_empty h

def sampleNode : Node := chainNode [withEntry genesisBlock]

/-- The miner's block passes both ways, and its miner may mine. -/
theorem pos_admission_sample : ∃ b', createPosTx sampleNode sampleWallet [] sampleTemplate sampleView sampleView
      (entryOf genesisBlock) = .ok b' ∧
    b'.verifyPosTx sampleNode ⟨sampleView, scriptsOf []⟩ .empty false = .ok () ∧
    b'.verifyPosTx sampleNode ⟨sampleView, scriptsOf []⟩ .empty true = .ok () ∧
    b'.NotConfirmed sampleNode .empty ∧
    ∃ prtx c, b'.rewardTx = .ok prtx ∧ sampleView.getAccount sampleNode.cr prtx.cAccount = some c ∧
      canMine sampleNode.cfg c b'.height = true := by
  have hall := pos_admission sampleNode
  have hfacts : (createPosTx sampleNode sampleWallet [] sampleTemplate sampleView sampleView
      (entryOf genesisBlock)).toOption.map (fun b' => (b'.otherTxs,
        (b'.verifyPosTx sampleNode ⟨sampleView, scriptsOf []⟩ .empty true).toOption)) = some ([], some ()) := by
    decide +kernel
  cases hb' : createPosTx sampleNode sampleWallet [] sampleTemplate sampleView sampleView
      (entryOf genesisBlock) with
  | error x =>
    rw [hb'] at hfacts
    cases hfacts
  | ok b' =>
    rw [hb'] at hfacts
    obtain ⟨hothers, hpassed⟩ := Prod.mk.inj (Option.some.inj hfacts)
    obtain ⟨_, hverify⟩ := Except.exists_of_toOption (Option.isSome_of_eq_some hpassed)
    have hkept : MinerKeysKept sampleNode b' ⟨sampleView, scriptsOf []⟩ := by
      intro vs' burnt prtx hexec _
      rw [hothers] at hexec
      obtain ⟨rfl, -⟩ := Prod.mk.inj (Except.ok.inj hexec)
      rfl
    obtain ⟨vs', burnt, hexec, -, -, hcache, -, hminer⟩ :=
      (hall.2 b' ⟨sampleView, scriptsOf []⟩ .empty hkept).mp hverify
    rw [hothers] at hexec
    obtain ⟨rfl, -⟩ := Prod.mk.inj (Except.ok.inj hexec)
    refine ⟨b', rfl, hall.1 sampleWallet [] sampleTemplate b' sampleView sampleView
      (entryOf genesisBlock) (scriptsOf []) .empty ?_ ?_ ?_ hb', hverify, hcache, hminer⟩
    · intro k a hash vSign ha _ hsign
      obtain rfl := sampleView_lookup ha
      have hkey : miner.cKeyID = keyId 6 := rfl
      rw [hkey] at hsign
      obtain rfl : uint256Codec.write hash ++ (pubKey 6).vch = vSign := by
        simpa [sampleWallet] using hsign
      left
      have hvalid : miner.cPublicKey.isFullyValid sampleNode.cr = true := by decide +kernel
      unfold checkSignScript
      rw [hvalid, Bool.true_and]
      exact beq_self_eq_true _
    · intro k a r ha hr
      obtain rfl := sampleView_lookup ha
      have hid : sampleView.getRegId sampleNode.cr (.keyID miner.cKeyID) = some ⟨0, 1⟩ := by
        decide +kernel
      rw [hid] at hr
      obtain rfl := Option.some.inj hr
      decide +kernel
    · refine ⟨rfl, fun prtx hprtx _ => ?_⟩
      obtain rfl := Except.ok.inj hprtx
      rfl

/-- The two verifications agree when nothing but the execution and its fuel is asked for. -/
def VerificationsAgree (node : Node) (b : CBlock) (vs : Views) (cache : CTransactionDBCache) : Prop :=
  b.verifyPosTx node vs cache true = .ok () ↔
    ∃ vs' burnt, executeTxs node b b.otherTxs vs = .ok (vs', burnt) ∧
      totalFuel 0 burnt = CBlockHeader.fuelNarrowed b.llFuel ∧
      b.verifyPosTx node vs' cache false = .ok ()

/-- An account that has coin days but is no miner. -/
def idleAccount : CAccount :=
  { miner with ullValues := 1000000024, nHeight := 2999, ullCoinDay := 0 }

/-- A block it signed. -/
def idleBlock : CBlock :=
  mine { CBlockHeader.null with unTime := 60, unBits := 0x20007fff, unHeight := 3000 }
    (idleAccount.upDateCoinDay cfg 3000) [.reward ⟨2, .regID ⟨0, 1⟩, 0, 3000⟩]

/-- It passes on the state its (empty) execution leads to, but not with the run. -/
theorem idleBlock_verifications_differ :
    ¬ VerificationsAgree node idleBlock
      ⟨viewOf [idleAccount] [(⟨0, 1⟩, keyId 6)] 0, scriptsOf []⟩ .empty := by
  intro h
  have hpost : (idleBlock.verifyPosTx node ⟨viewOf [idleAccount] [(⟨0, 1⟩, keyId 6)] 0, scriptsOf []⟩
      .empty false).toOption.isSome = true := by decide +kernel
  have hpre : (idleBlock.verifyPosTx node ⟨viewOf [idleAccount] [(⟨0, 1⟩, keyId 6)] 0, scriptsOf []⟩
      .empty true).toOption.isSome = false := by decide +kernel
  obtain ⟨u, hu⟩ := Except.exists_of_toOption hpost
  have hok := h.mpr ⟨_, [], rfl, by decide +kernel, hu⟩
  rw [hok] at hpre
  cases hpre

end CBlock

end Dacrs
