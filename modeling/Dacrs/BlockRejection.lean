import Dacrs.Rejection

/-!
# The rejections of a block

`Recording` says for which blocks and in which states every rejection by `ConnectBlock` is recorded
(`records_iff`); a write to the disk that fails is no rejection.
-/

open Codec (Bytes)

namespace Dacrs

open Except (avoids_ok avoids_error avoids_bind)

/-! ## CheckBlock -/

theorem CBaseTransaction.checkTransaction_loud (node : Node) (tx : CBaseTransaction)
    (view : CAccountViewCache) (s : CScriptDBViewCache) : (tx.checkTransaction node view s).Loud := by
  have hsign : ∀ r h sig, (checkAccountSign node view r h sig).Loud := by
    intro r h sig
    refine Exec.loud_bind.mpr ⟨Exec.loud_ofOption (Exec.loud_reject _), fun a _ => ?_⟩
    refine Exec.loud_bind.mpr ⟨Exec.loud_require (Exec.loud_reject _), fun _ _ => ?_⟩
    exact Exec.loud_require (Exec.loud_reject _)
  unfold checkTransaction
  split
  · exact avoids_ok ()
  · refine Exec.loud_bind.mpr ⟨Exec.loud_require (Exec.loud_doS _ _ _), fun _ _ => ?_⟩
    refine Exec.loud_bind.mpr ⟨Exec.loud_require (Exec.loud_reject _), fun _ _ => ?_⟩
    cases tx with
    | reward tx => exact avoids_ok ()
    | registerAccount tx =>
      show (tx.checkTransction node).Loud
      unfold CRegisterAccountTx.checkTransction
      split
      · refine Exec.loud_bind.mpr ⟨Exec.loud_require (Exec.loud_reject _), fun _ _ => ?_⟩
        refine Exec.loud_bind.mpr ⟨Exec.loud_require (Exec.loud_reject _), fun _ _ => ?_⟩
        refine Exec.loud_bind.mpr ⟨Exec.loud_require (Exec.loud_reject _), fun _ _ => ?_⟩
        exact Exec.loud_require (Exec.loud_reject _)
      · exact Exec.loud_reject _
    | transaction tx =>
      show (tx.checkTransction node view).Loud
      unfold CTransaction.checkTransction
      split
      · refine Exec.loud_bind.mpr ⟨Exec.loud_require (Exec.loud_reject _), fun _ _ => ?_⟩
        refine Exec.loud_bind.mpr ⟨Exec.loud_require (Exec.loud_reject _), fun _ _ => ?_⟩
        exact hsign _ _ _
      · exact Exec.loud_reject _
    | registerApp tx =>
      show (tx.checkTransction node view s).Loud
      unfold CRegisterAppTx.checkTransction
      split
      · refine Exec.loud_bind.mpr ⟨Exec.loud_require (Exec.loud_reject _), fun _ _ => ?_⟩
        refine Exec.loud_bind.mpr ⟨Exec.loud_require (Exec.loud_reject _), fun _ _ => ?_⟩
        exact hsign _ _ _
      · exact Exec.loud_reject _

namespace CBlock

variable {node : Node} {b : CBlock}

/-- The checks of `CheckBlock` before the one for duplicates. -/
def checkBlockHead (node : Node) (b : CBlock) (view : CAccountViewCache) (s : CScriptDBViewCache)
    (bCheckTx : Bool) : Exec Unit := do
  Exec.require (b.vptx ≠ [] ∧ b.vptx.length ≤ maxBlockSize ∧ b.serialize.length ≤ maxBlockSize)
    (Exec.reject "bad-blk-length")
  Exec.require (¬ (updateBlockVersionHeight ≤ b.unHeight ∧ b.nVersion ≠ blockVersion3))
    (Exec.invalid rejectInvalid "block-version-error")
  Exec.require (¬ (twelveForwardLimits < b.unHeight ∧
    node.adjustedTime + 12 * 60 < b.unTime.toNat)) (Exec.invalid rejectInvalid "time-too-new")
  Exec.require ((b.vptx.head?.map CBaseTransaction.isCoinBase) = some true)
    (Exec.reject "bad-cb-missing")
  b.vptx.zipIdx.forM (b.checkBlockTx node view s bCheckTx)

theorem checkBlock_eq (view : CAccountViewCache) (s : CScriptDBViewCache)
    (bCheckTx bCheckMerkleRoot : Bool) :
    b.checkBlock node view s bCheckTx bCheckMerkleRoot = (do
      b.checkBlockHead node view s bCheckTx
      Exec.require (b.vptx.map (CBaseTransaction.getHash node.cr.Hash)).Nodup
        (Exec.doS 100 rejectInvalid "bad-txns-duplicate" true)
      Exec.require (¬ (bCheckMerkleRoot ∧ b.cHashMerkleRoot ≠ b.buildMerkleTree node.cr.Hash))
        (Exec.doS 100 rejectInvalid "bad-txnmrklroot" true)
      Exec.require (b.unNonce ≤ blockMaxNonce) (Exec.invalid rejectInvalid "Nonce-too-large")) := by
  unfold checkBlock checkBlockHead
  simp only [bind_assoc]

theorem checkBlockHead_loud (view : CAccountViewCache) (s : CScriptDBViewCache) (bCheckTx : Bool) :
    (b.checkBlockHead node view s bCheckTx).Loud := by
  refine Exec.loud_bind.mpr ⟨Exec.loud_require (Exec.loud_reject _), fun _ _ => ?_⟩
  refine Exec.loud_bind.mpr ⟨Exec.loud_require (Exec.loud_doS _ _ _), fun _ _ => ?_⟩
  refine Exec.loud_bind.mpr ⟨Exec.loud_require (Exec.loud_doS _ _ _), fun _ _ => ?_⟩
  refine Exec.loud_bind.mpr ⟨Exec.loud_require (Exec.loud_reject _), fun _ _ => ?_⟩
  refine Except.Avoids.forM fun item _ => ?_
  refine Exec.loud_bind.mpr ⟨?_, fun _ _ => Exec.loud_require (Exec.loud_reject _)⟩
  unfold checkTxIf
  split
  · exact item.1.checkTransaction_loud node view s
  · exact avoids_ok ()

/-- The transactions are distinct and, where it is checked, have the block's merkle root. -/
def Intact (node : Node) (b : CBlock) (bCheckMerkleRoot : Bool) : Prop :=
  (b.vptx.map (CBaseTransaction.getHash node.cr.Hash)).Nodup ∧
    ¬ (bCheckMerkleRoot ∧ b.cHashMerkleRoot ≠ b.buildMerkleTree node.cr.Hash)

/-- `CheckBlock` says "corrupt" of a block that is not intact. -/
theorem checkBlock_loud_iff {view : CAccountViewCache} {s : CScriptDBViewCache}
    {bCheckTx bCheckMerkleRoot : Bool} :
    (b.checkBlock node view s bCheckTx bCheckMerkleRoot).Loud ↔
      (b.checkBlockHead node view s bCheckTx = .ok () → b.Intact node bCheckMerkleRoot) := by
  rw [checkBlock_eq, Exec.loud_bind]
  constructor
  · rintro ⟨-, h⟩ hhead
    obtain ⟨hnodup, h⟩ := Exec.loud_bind.mp (h () hhead)
    rw [Exec.loud_require_iff (Exec.not_loud_corruption _ _ _)] at hnodup
    have hroot := (Exec.loud_bind.mp (h () (if_pos hnodup))).1
    rw [Exec.loud_require_iff (Exec.not_loud_corruption _ _ _)] at hroot
    exact ⟨hnodup, hroot⟩
  · intro h
    refine ⟨checkBlockHead_loud view s bCheckTx, fun _ hhead => ?_⟩
    obtain ⟨hnodup, hroot⟩ := h hhead
    refine Exec.loud_bind.mpr ⟨?_, fun _ _ => Exec.loud_bind.mpr ⟨?_, fun _ _ => ?_⟩⟩
    · exact (Exec.loud_require_iff (Exec.not_loud_corruption _ _ _)).mpr hnodup
    · exact (Exec.loud_require_iff (Exec.not_loud_corruption _ _ _)).mpr hroot
    · exact Exec.loud_require (Exec.loud_doS _ _ _)

/-! ## The transactions after the coinbase -/

section
variable {nHeight : ℤ} {cache : CTransactionDBCache}

/-- The loop of `ConnectBlock` does not reach a transaction that is refused without a word. -/
def TxHeard (node : Node) (nHeight : ℤ) (cache : CTransactionDBCache) (st : TxsRun)
    (item : CBaseTransaction × ℕ) : Prop :=
  ¬ cache.isContainTx (item.1.getHash node.cr.Hash) →
    ∀ best, bestHeight node st.views = .ok best → item.1.isValidHeight best node.cfg.nTxCacheHeight →
      ¬ item.1.Refused node item.2 nHeight st.views

theorem getFuel_loud (chainActive : PBlockIndex) (type : EmTxType) (ullRunStep : UInt64)
    (nFuelRate : Int32) : (getFuel chainActive type ullRunStep nFuelRate).Loud := by
  unfold getFuel
  dsimp only
  split
  · split
    · exact Exec.loud_throw _
    · exact avoids_ok _
  · exact avoids_ok _

theorem bestHeight_loud (vs : Views) : (bestHeight node vs).Loud := by
  unfold bestHeight
  split
  · exact avoids_ok _
  · exact Exec.loud_throw _

theorem connectTx_loud_iff {st : TxsRun} {item : CBaseTransaction × ℕ}
    (hcoinbase : ∀ r, item.1 ≠ .reward r) :
    (b.connectTx node nHeight cache st item).Loud ↔ TxHeard node nHeight cache st item := by
  have hexecute : (item.1.executeTx node item.2 nHeight b.nFuelRate st.views).Loud ↔
      ¬ item.1.Refused node item.2 nHeight st.views :=
    CBaseTransaction.executeTx_loud fun r hr => absurd hr (hcoinbase r)
  constructor
  · intro h hnew best hbest hvalid
    have h1 := (Exec.loud_bind.mp h).2 () (if_pos hnew)
    have h2 := (Exec.loud_bind.mp h1).2 best hbest
    have h3 := (Exec.loud_bind.mp h2).2 () (if_pos hvalid)
    exact hexecute.mp (Exec.loud_bind.mp h3).1
  · intro h
    refine Exec.loud_bind.mpr ⟨Exec.loud_require (Exec.loud_reject _), fun _ hnew => ?_⟩
    refine Exec.loud_bind.mpr ⟨bestHeight_loud _, fun best hbest => ?_⟩
    refine Exec.loud_bind.mpr ⟨Exec.loud_require (Exec.loud_reject _), fun _ hvalid => ?_⟩
    have hnew' := (Exec.require_eq_ok (Exec.fails_doS _ _ _ _)).mp hnew
    have hvalid' := (Exec.require_eq_ok (Exec.fails_doS _ _ _ _)).mp hvalid
    refine Exec.loud_bind.mpr ⟨hexecute.mpr (h hnew' best hbest hvalid'), fun e _ => ?_⟩
    refine Exec.loud_bind.mpr ⟨Exec.loud_require (Exec.loud_reject _), fun _ _ => ?_⟩
    exact Exec.loud_bind.mpr ⟨getFuel_loud _ _ _ _, fun _ _ => avoids_ok _⟩

/-- The fuel of the header is that of the transactions. -/
def FuelMatches (b : CBlock) (st : TxsRun) : Prop :=
  b.vptx.length ≤ 1 ∨ st.llTotalFuel = CBlockHeader.fuelNarrowed b.llFuel

/-- The transactions after the coinbase are heard, and their fuel is the header's. -/
def TxsHeard (node : Node) (b : CBlock) (nHeight : ℤ) (cache : CTransactionDBCache) (vs : Views) : Prop :=
  Except.StepsSafe (b.connectTx node nHeight cache) (TxHeard node nHeight cache) ⟨vs, 0, 0, []⟩ b.otherTxs ∧
    ∀ st, b.otherTxs.foldlM (b.connectTx node nHeight cache) ⟨vs, 0, 0, []⟩ = .ok st → b.FuelMatches st

theorem connectTxs_loud_iff {vs : Views} (hcoinbase : ∀ item ∈ b.otherTxs, ∀ r, item.1 ≠ .reward r) :
    (b.connectTxs node nHeight cache vs).Loud ↔ b.TxsHeard node nHeight cache vs := by
  have hloop : (b.otherTxs.foldlM (b.connectTx node nHeight cache) ⟨vs, 0, 0, []⟩).Loud ↔
      Except.StepsSafe (b.connectTx node nHeight cache) (TxHeard node nHeight cache) ⟨vs, 0, 0, []⟩ b.otherTxs :=
    Except.avoids_foldlM_of_mem b.otherTxs (fun st item hitem => connectTx_loud_iff (hcoinbase item hitem)) _
  unfold connectTxs TxsHeard
  rw [Exec.loud_bind, hloop]
  refine and_congr_right fun _ => forall_congr' fun st => imp_congr_right fun _ => ?_
  rw [Exec.loud_bind, Exec.loud_require_iff Exec.not_loud_returnFalse]
  exact and_iff_left fun _ _ => avoids_ok _

/-! ## The coinbase -/

theorem verifyPosTx_uncalled (vs : Views) : (b.verifyPosTx node vs cache false).Uncalled := by
  unfold verifyPosTx
  refine Exec.uncalled_bind.mpr ⟨Exec.uncalled_require, fun _ _ => ?_⟩
  refine Exec.uncalled_bind.mpr ⟨Exec.uncalled_require, fun _ _ => ?_⟩
  refine Exec.uncalled_bind.mpr ⟨?_, fun prtx _ => ?_⟩
  · unfold rewardTx
    split
    · exact avoids_ok _
    · exact Exec.uncalled_throw _
  · refine Exec.uncalled_bind.mpr ⟨Exec.uncalled_ofOption, fun a _ => ?_⟩
    refine Exec.uncalled_bind.mpr ⟨Exec.uncalled_require, fun _ _ => ?_⟩
    refine Exec.uncalled_bind.mpr ⟨Exec.uncalled_require, fun _ _ => ?_⟩
    refine Exec.uncalled_bind.mpr ⟨avoids_ok _, fun a _ => ?_⟩
    refine Exec.uncalled_bind.mpr ⟨Exec.uncalled_require, fun _ _ => ?_⟩
    exact Exec.uncalled_bind.mpr ⟨Exec.uncalled_require, fun _ _ => Exec.uncalled_require⟩

theorem connectReward_loud (vs : Views) : (b.connectReward node nHeight cache vs).Loud := by
  refine Exec.loud_bind.mpr ⟨Exec.loud_onFalse (verifyPosTx_uncalled vs) _ _ _, fun _ _ => ?_⟩
  refine Exec.loud_bind.mpr ⟨?_, fun rewardTx _ => ?_⟩
  · unfold rewardTx
    split
    · exact avoids_ok _
    · exact Exec.loud_throw _
  · refine Exec.loud_bind.mpr ⟨?_, fun _ _ => ?_⟩
    · unfold checkMiner
      split
      · exact avoids_ok _
      · exact Exec.loud_require (Exec.loud_reject _)
    · refine Exec.loud_bind.mpr ⟨Exec.loud_require (Exec.loud_reject _), fun _ _ => ?_⟩
      exact rewardTx.executeTx_loud node nHeight vs (.inl rfl)

/-- The first transaction of the block that matures is not refused without a word. -/
def MatureHeard (node : Node) (p : PBlockIndex) (nHeight : ℤ) (vs : Views) : Prop :=
  0 < nHeight - coinbaseMaturity → ∀ q rest, matureIndex p = .ok (q :: rest) →
    ∀ d, node.readBlockFromDisk q = some d → ∀ tx, d.firstTx = .ok tx → ¬ tx.Refused node (-1) nHeight vs

theorem connectMature_loud_iff {p : PBlockIndex} {e : Executed} :
    (connectMature node p nHeight e).Loud ↔ MatureHeard node p nHeight e.views := by
  have hexecute : ∀ tx : CBaseTransaction, (tx.executeTx node (-1) nHeight 0 e.views).Loud ↔
      ¬ tx.Refused node (-1) nHeight e.views := fun tx => CBaseTransaction.executeTx_loud fun _ _ => .inr rfl
  unfold connectMature MatureHeard
  split
  · next hpos =>
    constructor
    · intro h _ q rest hq d hd tx htx
      have h1 := (Exec.loud_bind.mp h).2 (q :: rest) hq
      have h2 := (Exec.loud_bind.mp h1).2 d (by rw [hd]; rfl)
      have h3 := (Exec.loud_bind.mp h2).2 tx htx
      exact (hexecute tx).mp (Exec.loud_bind.mp h3).1
    · intro h
      refine Exec.loud_bind.mpr ⟨?_, fun l hl => ?_⟩
      · unfold matureIndex
        split
        · exact Exec.loud_throw _
        · exact avoids_ok _
      · cases l with
        | nil => exact avoids_ok _
        | cons q rest =>
          refine Exec.loud_bind.mpr ⟨Exec.loud_ofOption (Exec.loud_reject _), fun d hd => ?_⟩
          refine Exec.loud_bind.mpr ⟨Exec.loud_ofOption (Exec.loud_throw _), fun tx htx => ?_⟩
          have hd' := (Exec.ofOption_eq_ok (Exec.fails_doS _ _ _ _)).mp hd
          refine Exec.loud_bind.mpr ⟨(hexecute tx).mpr ?_, fun _ _ => avoids_ok _⟩
          exact h hpos q rest hl d hd' tx htx
  · next hpos => exact iff_of_true (avoids_ok _) fun h => absurd h hpos

/-- All transactions that `ConnectBlock` executes are heard, and the fuel is right. -/
def ViewsHeard (node : Node) (b : CBlock) (vs : Views) (p : PBlockIndex) (nHeight : ℤ)
    (cache : CTransactionDBCache) : Prop :=
  b.TxsHeard node nHeight cache vs ∧
    ∀ st, b.connectTxs node nHeight cache vs = .ok st →
      ∀ e, b.connectReward node nHeight cache st.views = .ok e → MatureHeard node p nHeight e.views

theorem connectViews_loud_iff {vs : Views} {p : PBlockIndex}
    (hcoinbase : ∀ item ∈ b.otherTxs, ∀ r, item.1 ≠ .reward r) :
    (b.connectViews node vs p nHeight cache).Loud ↔ b.ViewsHeard node vs p nHeight cache := by
  unfold connectViews ViewsHeard
  rw [Exec.loud_bind, connectTxs_loud_iff hcoinbase]
  refine and_congr_right fun _ => forall_congr' fun st => imp_congr_right fun _ => ?_
  rw [Exec.loud_bind, and_iff_right (connectReward_loud st.views)]
  refine forall_congr' fun e => imp_congr_right fun _ => ?_
  rw [Exec.loud_bind, connectMature_loud_iff]
  exact and_iff_left fun _ _ => avoids_ok _

end

/-! ## The transaction cache -/

/-- The block that leaves the transaction cache is read, and is there. -/
def CacheServes (node : Node) (b : CBlock) (p : PBlockIndex) (nHeight : ℤ)
    (cache : CTransactionDBCache) : Prop :=
  0 < nHeight - node.cfg.nTxCacheHeight → ∀ q, chainAt p (nHeight - node.cfg.nTxCacheHeight) = some q →
    ∃ d, node.readBlockFromDisk q = some d ∧
      (cache.addBlockToCache node.cr.Hash b).deleteBlockFromCache node.cr.Hash d ≠ none

theorem connectCache_loud_iff {p : PBlockIndex} {nHeight : ℤ} {cache : CTransactionDBCache} :
    (b.connectCache node p nHeight cache).Loud ↔ CacheServes node b p nHeight cache := by
  unfold connectCache CacheServes
  dsimp only
  split
  · next hpos =>
    rw [forall_prop_of_true hpos]
    cases hq : chainAt p (nHeight - node.cfg.nTxCacheHeight) with
    | none =>
      have hlimit : cacheLimitBlock node p nHeight = Exec.throw "cTempChain[..] is NULL" := by
        unfold cacheLimitBlock
        rw [hq]
        rfl
      rw [hlimit]
      exact iff_of_true (Exec.loud_throw _) fun q h => nomatch h
    | some q =>
      have hlimit : cacheLimitBlock node p nHeight
          = Exec.ofOption (node.readBlockFromDisk q) (Exec.abort "Failed to read block") := by
        unfold cacheLimitBlock
        rw [hq]
        rfl
      rw [hlimit, Exec.loud_bind, Exec.loud_ofOption_iff (Exec.not_loud_abort _)]
      constructor
      · rintro ⟨hread, hdelete⟩ q' hq'
        obtain rfl := Option.some.inj hq'
        obtain ⟨d, hd⟩ := Option.isSome_iff_exists.mp hread
        have hsome := hdelete d ((Exec.ofOption_eq_ok (Exec.fails_error _)).mpr hd)
        rw [Exec.loud_ofOption_iff (Exec.not_loud_abort _)] at hsome
        exact ⟨d, hd, Option.isSome_iff_ne_none.mp hsome⟩
      · intro h
        obtain ⟨d, hd, hne⟩ := h q rfl
        refine ⟨Option.isSome_iff_exists.mpr ⟨d, hd⟩, fun d' hd' => ?_⟩
        have hread := (Exec.ofOption_eq_ok (Exec.fails_error _)).mp hd'
        rw [hd] at hread
        obtain rfl := Option.some.inj hread
        rw [Exec.loud_ofOption_iff (Exec.not_loud_abort _)]
        exact Option.isSome_iff_ne_none.mpr hne
  · next hpos => exact iff_of_true (avoids_ok _) fun h => absurd h hpos

/-! ## ConnectBlock -/

section
variable {vs : Views} {p : PBlockIndex} {cache : CTransactionDBCache} {files : UndoFiles} {bJustCheck : Bool}

/-- The call comes to the transactions of a block other than genesis. -/
structure Reaches (node : Node) (b : CBlock) (vs : Views) (p : PBlockIndex) (bJustCheck : Bool)
    (pIndex : CBlockIndex) (pPrev : PBlockIndex) : Prop where
  entry : p = pIndex :: pPrev
  checked : b.checkBlock node vs.view vs.scriptDB (!bJustCheck) (!bJustCheck) = .ok ()
  best : bJustCheck ∨ PBlockIndex.hash pPrev = vs.view.cHashBlock
  other : b.getHash node.cr.Hash ≠ node.cfg.cHashGenesisBlock

/-- What the call writes of a block whose transactions have been executed. -/
def written (node : Node) (b : CBlock) (pIndex : CBlockIndex) (pPrev : PBlockIndex) (files : UndoFiles)
    (r : Views × CBlockUndo) : Exec (CBlockIndex × UndoFiles) :=
  connectEntry node pIndex pPrev (b.connectIndex node pIndex r.1 r.2).2 files

/-- The call returns false because a write to the disk fails. -/
def WriteFails (node : Node) (b : CBlock) (vs : Views) (p : PBlockIndex) (cache : CTransactionDBCache)
    (files : UndoFiles) (bJustCheck : Bool) : Prop :=
  bJustCheck = false ∧ ∃ pIndex pPrev r calls, b.Reaches node vs p bJustCheck pIndex pPrev ∧
    b.connectViews node vs p pIndex.nHeight cache = .ok r ∧
    b.written node pIndex pPrev files r = .error (.fail calls)

/-- Where every rejection of the block is recorded. -/
structure Recording (node : Node) (b : CBlock) (vs : Views) (p : PBlockIndex) (cache : CTransactionDBCache)
    (files : UndoFiles) (bJustCheck : Bool) : Prop where
  intact : b.checkBlockHead node vs.view vs.scriptDB (!bJustCheck) = .ok () → b.Intact node (!bJustCheck)
  heard : ∀ pIndex pPrev, b.Reaches node vs p bJustCheck pIndex pPrev →
    b.ViewsHeard node vs p pIndex.nHeight cache
  cached : bJustCheck = false → ∀ pIndex pPrev, b.Reaches node vs p bJustCheck pIndex pPrev →
    ∀ r, b.connectViews node vs p pIndex.nHeight cache = .ok r →
      ∀ w, b.written node pIndex pPrev files r = .ok w → CacheServes node b p pIndex.nHeight cache

theorem Reaches.not_coinbase {pIndex : CBlockIndex} {pPrev : PBlockIndex}
    (h : b.Reaches node vs p bJustCheck pIndex pPrev) : ∀ item ∈ b.otherTxs, ∀ r, item.1 ≠ .reward r :=
  fun _ hitem => (checkBlock_ok h.checked).not_coinbase h.other hitem

theorem connectGenesisTx_loud (v : CAccountViewCache) (item : CBaseTransaction × ℕ) (nHeight : ℤ) :
    (connectGenesisTx node nHeight v item).Loud := by
  unfold connectGenesisTx
  split
  · split
    · exact avoids_ok _
    · exact Exec.loud_throw _
  · exact Exec.loud_throw _

theorem connectRecords_loud_iff {pIndex : CBlockIndex} {pPrev : PBlockIndex} {r : Views × CBlockUndo}
    (hwrite : ∀ calls, b.written node pIndex pPrev files r ≠ .error (.fail calls)) :
    (b.connectRecords node pIndex pPrev cache files r.1 r.2).Loud ↔
      ∀ w, b.written node pIndex pPrev files r = .ok w →
        CacheServes node b (pIndex :: pPrev) pIndex.nHeight cache := by
  have hentry : (b.written node pIndex pPrev files r).Loud := by
    intro e he hloud
    cases e with
    | throw what => exact hloud
    | fail calls => exact hwrite calls he
  show Exec.Loud (b.written node pIndex pPrev files r >>= fun w => _) ↔ _
  rw [Exec.loud_bind, and_iff_right hentry]
  refine forall_congr' fun w => imp_congr_right fun _ => ?_
  rw [Exec.loud_bind, connectCache_loud_iff]
  exact and_iff_left fun _ _ => avoids_ok _

/-- `ConnectBlock`, when no write fails. -/
theorem connectBlock_loud_iff (hwrite : ¬ b.WriteFails node vs p cache files bJustCheck) :
    (b.connectBlock node vs p cache files bJustCheck).Loud ↔
      b.Recording node vs p cache files bJustCheck := by
  have hwritten : ∀ pIndex pPrev, b.Reaches node vs p bJustCheck pIndex pPrev → bJustCheck = false →
      ∀ r, b.connectViews node vs p pIndex.nHeight cache = .ok r →
        ∀ calls, b.written node pIndex pPrev files r ≠ .error (.fail calls) :=
    fun pIndex pPrev hr hjust r hviews calls hw => hwrite ⟨hjust, pIndex, pPrev, r, calls, hr, hviews, hw⟩
  unfold connectBlock
  rw [Exec.loud_bind, checkBlock_loud_iff]
  constructor
  · rintro ⟨hintact, h⟩
    have hconnect : ∀ pIndex pPrev, b.Reaches node vs p bJustCheck pIndex pPrev →
        (b.connectViews node vs p pIndex.nHeight cache).Loud ∧
          ∀ r, b.connectViews node vs p pIndex.nHeight cache = .ok r → bJustCheck = false →
            (b.connectRecords node pIndex pPrev cache files r.1 r.2).Loud := by
      rintro pIndex pPrev ⟨rfl, hchecked, hbest, hother⟩
      have h1 := (Exec.loud_bind.mp (h () hchecked)).2 () (if_pos hbest)
      rw [if_neg hother] at h1
      obtain ⟨hviews, hrest⟩ := Exec.loud_bind.mp h1
      refine ⟨hviews, fun r hr hjust => ?_⟩
      have hrecords := hrest r hr
      rw [hjust] at hrecords
      exact hrecords
    refine ⟨hintact, fun pIndex pPrev hr => ?_, fun hjust pIndex pPrev hr r hviews => ?_⟩
    · exact (connectViews_loud_iff hr.not_coinbase).mp (hconnect pIndex pPrev hr).1
    · rw [hr.entry]
      have hrecords := (hconnect pIndex pPrev hr).2 r hviews hjust
      exact (connectRecords_loud_iff (hwritten pIndex pPrev hr hjust r hviews)).mp hrecords
  · intro h
    refine ⟨h.intact, fun _ hchecked => ?_⟩
    cases p with
    | nil => exact Exec.loud_throw _
    | cons pIndex pPrev =>
      refine Exec.loud_bind.mpr ⟨Exec.loud_require (Exec.loud_throw _), fun _ hbest => ?_⟩
      have hbest' := (Exec.require_eq_ok (Exec.fails_throw _)).mp hbest
      split
      · refine Exec.loud_bind.mpr ⟨?_, fun _ _ => avoids_ok _⟩
        exact Except.Avoids.foldlM (fun v item => connectGenesisTx_loud v item _) _ _
      · next hother =>
        have hr : b.Reaches node vs (pIndex :: pPrev) bJustCheck pIndex pPrev :=
          ⟨rfl, hchecked, hbest', hother⟩
        have hviews := (connectViews_loud_iff hr.not_coinbase).mpr (h.heard pIndex pPrev hr)
        refine Exec.loud_bind.mpr ⟨hviews, fun r hr' => ?_⟩
        cases hjust : bJustCheck with
        | true => exact avoids_ok _
        | false =>
          refine (connectRecords_loud_iff (hwritten pIndex pPrev hr hjust r hr')).mpr ?_
          exact h.cached hjust pIndex pPrev hr r hr'

/-- A write that fails is an abort. -/
theorem written_fail {pIndex : CBlockIndex} {pPrev : PBlockIndex} {r : Views × CBlockUndo}
    {calls : List StateCall} (h : b.written node pIndex pPrev files r = .error (.fail calls)) :
    ∃ reason, calls = [.error reason] := by
  have hrequire : ∀ (p : Prop) [Decidable p] (reason : String),
      Exec.require p (Exec.abort reason) = .error (.fail calls) → ∃ reason, calls = [.error reason] := by
    intro p _ reason hfail
    unfold Exec.require at hfail
    split at hfail
    · cases hfail
    · cases hfail
      exact ⟨reason, rfl⟩
  unfold written connectEntry at h
  split at h
  · rcases Except.bind_eq_error.mp h with hwrite | ⟨w, -, h⟩
    · unfold writeUndo at hwrite
      split at hwrite
      · unfold writeNewUndo at hwrite
        split at hwrite
        · cases hwrite
        · split at hwrite
          · cases hwrite
            exact ⟨_, rfl⟩
          · rcases Except.bind_eq_error.mp hwrite with hrecord | ⟨_, -, hok⟩
            · exact hrequire _ _ hrecord
            · cases hok
      · cases hwrite
    · rcases Except.bind_eq_error.mp h with hindex | ⟨_, -, hok⟩
      · exact hrequire _ _ hindex
      · cases hok
  · cases h

theorem connectBlock_of_writeFails (h : b.WriteFails node vs p cache files bJustCheck) :
    ∃ reason, b.connectBlock node vs p cache files bJustCheck = .error (.fail [.error reason]) := by
  obtain ⟨rfl, pIndex, pPrev, r, calls, ⟨rfl, hchecked, hbest, hother⟩, hviews, hwrite⟩ := h
  obtain ⟨reason, rfl⟩ := written_fail hwrite
  refine ⟨reason, ?_⟩
  have hrecords : b.connectRecords node pIndex pPrev cache files r.1 r.2 = .error (.fail [.error reason]) := by
    show (b.written node pIndex pPrev files r >>= fun w => _) = _
    rw [hwrite]
    rfl
  have hrequire : Exec.require (false = true ∨ PBlockIndex.hash pPrev = vs.view.cHashBlock)
      (Exec.throw "assert(cHashPrevBlock == cAccountViewCache.GetBestBlock())") = .ok () := if_pos hbest
  unfold connectBlock
  rw [hchecked, Except.ok_bind]
  dsimp only
  rw [hrequire, Except.ok_bind, if_neg hother, hviews, Except.ok_bind]
  exact hrecords

/-- Where a write fails the block itself has passed. -/
theorem recording_of_writeFails (h : b.WriteFails node vs p cache files bJustCheck) :
    b.Recording node vs p cache files bJustCheck := by
  obtain ⟨hjust, pIndex, pPrev, r, calls, hr, hviews, hwrite⟩ := h
  have hsame : ∀ pIndex' pPrev', b.Reaches node vs p bJustCheck pIndex' pPrev' →
      pIndex' = pIndex ∧ pPrev' = pPrev := by
    intro pIndex' pPrev' hr'
    have heq := hr'.entry
    rw [hr.entry] at heq
    obtain ⟨rfl, rfl⟩ := List.cons.inj heq
    exact ⟨rfl, rfl⟩
  refine ⟨checkBlock_loud_iff.mp ?_, fun pIndex' pPrev' hr' => ?_, fun _ pIndex' pPrev' hr' r' hviews' w hw => ?_⟩
  · rw [hr.checked]
    exact avoids_ok ()
  · obtain ⟨rfl, -⟩ := hsame pIndex' pPrev' hr'
    refine (connectViews_loud_iff hr.not_coinbase).mp ?_
    rw [hviews]
    exact avoids_ok r
  · obtain ⟨rfl, rfl⟩ := hsame pIndex' pPrev' hr'
    rw [hviews] at hviews'
    obtain rfl := Except.ok.inj hviews'
    rw [hwrite] at hw
    cases hw

/-- Every rejection is recorded exactly where the block is `Recording`. -/
theorem records_iff : (∀ calls, b.connectBlock node vs p cache files bJustCheck = .error (.fail calls) →
      ¬ b.WriteFails node vs p cache files bJustCheck → Recorded calls) ↔
    b.Recording node vs p cache files bJustCheck := by
  by_cases hwrite : b.WriteFails node vs p cache files bJustCheck
  · exact iff_of_true (fun _ _ hno => absurd hwrite hno) (recording_of_writeFails hwrite)
  · rw [← connectBlock_loud_iff hwrite]
    constructor
    · intro h e he hunrecorded
      cases e with
      | throw what => exact hunrecorded
      | fail calls => exact hunrecorded (h calls he hwrite)
    · intro h calls hfail _
      by_contra hno
      exact h _ hfail hno

end

/-- A rejected block is known to be invalid, and not for a possible corruption, exactly where its rejections
are recorded. -/
theorem rejected_invalid_iff (node : Node) (b : CBlock) (vs : Views) (p : PBlockIndex)
    (cache : CTransactionDBCache) (files : UndoFiles) (bJustCheck : Bool) :
    (∀ calls, b.connectBlock node vs p cache files bJustCheck = .error (.fail calls) →
      ¬ b.WriteFails node vs p cache files bJustCheck →
      ∀ st : CValidationState, st.emMode = .valid →
        (calls.foldl CValidationState.apply st).isInvalid = true ∧
          (calls.foldl CValidationState.apply st).bCorruptionPossible = false) ↔
      b.Recording node vs p cache files bJustCheck :=
  records_iff

end CBlock

end Dacrs
