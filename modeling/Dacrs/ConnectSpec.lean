import Dacrs.Connect

/-!
# What an accepted block has passed

Inversion of `CheckBlock` and `ConnectBlock`: each lemma says everything that holds when the
function returns true, so that no later proof unfolds it again.
-/

open Codec (Bytes)

namespace Dacrs

namespace CBlock

variable {node : Node} {b : CBlock}

/-! ## CheckBlock -/

/-- A block that passed `CheckBlock`. -/
structure Checked (node : Node) (b : CBlock) (view : CAccountViewCache) (s : CScriptDBViewCache)
    (bCheckTx bCheckMerkleRoot : Bool) : Prop where
  count : b.vptx.length ≤ maxBlockSize
  size : b.serialize.length ≤ maxBlockSize
  version : ¬ (updateBlockVersionHeight ≤ b.unHeight ∧ b.nVersion ≠ blockVersion3)
  time : ¬ (twelveForwardLimits < b.unHeight ∧ node.adjustedTime + 12 * 60 < b.unTime.toNat)
  /-- the first transaction is the coinbase -/
  coinbase : ∃ tx rest, b.vptx = .reward tx :: rest
  txs : ∀ item ∈ b.vptx.zipIdx, b.checkBlockTx node view s bCheckTx item = .ok ()
  nodup : (b.vptx.map (CBaseTransaction.getHash node.cr.Hash)).Nodup
  merkle : bCheckMerkleRoot → b.cHashMerkleRoot = b.buildMerkleTree node.cr.Hash
  nonce : b.unNonce ≤ blockMaxNonce

theorem isCoinBase_iff (tx : CBaseTransaction) :
    tx.isCoinBase = true ↔ ∃ r, tx = .reward r := by
  cases tx with
  | reward r => exact iff_of_true rfl ⟨r, rfl⟩
  | registerAccount r => exact iff_of_false (fun h => nomatch h) (by rintro ⟨_, h⟩; cases h)
  | transaction r =>
    refine iff_of_false ?_ (by rintro ⟨_, h⟩; cases h)
    cases h : r.chTxType <;> simp [CBaseTransaction.isCoinBase, CBaseTransaction.chTxType, h,
      CTransactionType.toTxType]
  | registerApp r => exact iff_of_false (fun h => nomatch h) (by rintro ⟨_, h⟩; cases h)

theorem checkBlock_ok {view : CAccountViewCache} {s : CScriptDBViewCache}
    {bCheckTx bCheckMerkleRoot : Bool} {u : Unit}
    (h : b.checkBlock node view s bCheckTx bCheckMerkleRoot = .ok u) :
    b.Checked node view s bCheckTx bCheckMerkleRoot := by
  simp only [checkBlock, Except.bind_eq_ok] at h
  obtain ⟨_, h1, _, h2, _, h3, _, h4, _, h5, _, h6, _, h7, h8⟩ := h
  have hreq := fun (p : Prop) [Decidable p] (l : ℤ) (c : UInt8) (r : String) (k : Bool) (u : Unit) =>
    (Exec.require_eq_ok (u := u) (p := p) (Exec.fails_doS l c r k)).mp
  obtain ⟨-, hcount, hsize⟩ := hreq _ _ _ _ _ _ h1
  replace h4 := hreq _ _ _ _ _ _ h4
  replace h7 := hreq _ _ _ _ _ _ h7
  refine ⟨hcount, hsize, hreq _ _ _ _ _ _ h2, hreq _ _ _ _ _ _ h3, ?_, Except.forM_eq_ok.mp h5,
    hreq _ _ _ _ _ _ h6, ?_, hreq _ _ _ _ _ _ h8⟩
  · cases hv : b.vptx with
    | nil =>
      rw [hv] at h4
      cases h4
    | cons tx rest =>
      rw [hv, List.head?_cons, Option.map_some, Option.some.injEq, isCoinBase_iff] at h4
      obtain ⟨r, rfl⟩ := h4
      exact ⟨r, rest, rfl⟩
  · intro hroot
    by_contra hne
    exact h7 ⟨hroot, hne⟩

section
variable {view : CAccountViewCache} {s : CScriptDBViewCache} {bCheckTx bCheckMerkleRoot : Bool}

/-- The transactions after the coinbase keep their places. -/
theorem mem_otherTxs {item : CBaseTransaction × ℕ} (hmem : item ∈ b.otherTxs) :
    item ∈ b.vptx.zipIdx ∧ 1 ≤ item.2 := by
  obtain ⟨tx, i⟩ := item
  rw [otherTxs, List.mk_mem_zipIdx_iff_le_and_getElem?_sub] at hmem
  rw [List.mk_mem_zipIdx_iff_getElem?]
  obtain ⟨hi, hget⟩ := hmem
  rw [List.getElem?_drop] at hget
  rw [← hget]
  exact ⟨by congr 1; omega, hi⟩

/-- Outside the genesis block only the first transaction is a coinbase. -/
theorem Checked.not_coinbase (hb : b.Checked node view s bCheckTx bCheckMerkleRoot)
    (hgen : b.getHash node.cr.Hash ≠ node.cfg.cHashGenesisBlock) {item : CBaseTransaction × ℕ}
    (hmem : item ∈ b.otherTxs) : ∀ r, item.1 ≠ .reward r := by
  obtain ⟨hzip, hpos⟩ := mem_otherTxs hmem
  have htx := hb.txs item hzip
  rw [checkBlockTx, Except.bind_eq_ok] at htx
  obtain ⟨_, _, hone⟩ := htx
  intro r hr
  exact (Exec.require_eq_ok (Exec.fails_doS _ _ _ _)).mp hone ⟨hgen, by omega, (isCoinBase_iff item.1).mpr ⟨r, hr⟩⟩

/-- A transaction of a block that was checked with its transactions passed its own check. -/
theorem Checked.checkTransaction (hb : b.Checked node view s true bCheckMerkleRoot)
    {item : CBaseTransaction × ℕ} (hmem : item ∈ b.vptx.zipIdx) :
    item.1.checkTransaction node view s = .ok () := by
  have htx := hb.txs item hmem
  rw [checkBlockTx, Except.bind_eq_ok] at htx
  obtain ⟨_, h1, _⟩ := htx
  exact h1

end

/-! ## ConnectBlock -/

section
variable {vs : Views} {p : PBlockIndex} {cache : CTransactionDBCache} {nHeight : ℤ}

/-- One transaction the loop of `ConnectBlock` let through. -/
theorem connectTx_ok {st st' : TxsRun} {item : CBaseTransaction × ℕ}
    (h : b.connectTx node nHeight cache st item = .ok st') :
    ∃ e llFuel, item.1.executeTx node item.2 nHeight b.nFuelRate st.views = .ok e ∧
      getFuel node.chainActive item.1.chTxType e.ullRunStep b.nFuelRate = .ok llFuel ∧
      st.ullTotalRunStep + e.ullRunStep ≤ maxBlockRunStep ∧
      st' = ⟨e.views, st.ullTotalRunStep + e.ullRunStep, st.llTotalFuel + llFuel.toInt64,
        st.vcTxUndo ++ [e.undo]⟩ := by
  simp only [connectTx, Except.bind_eq_ok] at h
  obtain ⟨_, -, _, -, _, -, e, he, _, hsteps, llFuel, hfuel, hst⟩ := h
  cases hst
  exact ⟨e, llFuel, he, hfuel, (Exec.require_eq_ok (Exec.fails_doS _ _ _ _)).mp hsteps, rfl⟩

theorem connectTxs_ok {st : TxsRun} (h : b.connectTxs node nHeight cache vs = .ok st) :
    b.otherTxs.foldlM (b.connectTx node nHeight cache) ⟨vs, 0, 0, []⟩ = .ok st ∧
      (b.vptx.length ≤ 1 ∨ st.llTotalFuel = CBlockHeader.fuelNarrowed b.llFuel) := by
  simp only [connectTxs, Except.bind_eq_ok] at h
  obtain ⟨_, hrun, _, hfuel, hst⟩ := h
  cases hst
  exact ⟨hrun, (Exec.require_eq_ok Exec.fails_returnFalse).mp hfuel⟩

theorem connectReward_ok {e : Executed} (h : b.connectReward node nHeight cache vs = .ok e) :
    ∃ tx, b.rewardTx = .ok tx ∧ b.verifyPosTx node vs cache false = .ok () ∧
      checkMiner node nHeight vs tx = .ok () ∧ tx.ullRewardValue = b.validReward ∧
      (CBaseTransaction.reward tx).executeTx node 0 nHeight 0 vs = .ok e := by
  simp only [connectReward, Except.bind_eq_ok] at h
  obtain ⟨_, hpos, tx, htx, _, hminer, _, hreward, he⟩ := h
  exact ⟨tx, htx, Exec.onFalse_eq_ok.mp hpos, hminer,
    (Exec.require_eq_ok (Exec.fails_doS _ _ _ _)).mp hreward, he⟩

theorem connectViews_ok {r : Views × CBlockUndo}
    (h : b.connectViews node vs p nHeight cache = .ok r) :
    ∃ st e matured, b.connectTxs node nHeight cache vs = .ok st ∧
      b.connectReward node nHeight cache st.views = .ok e ∧
      connectMature node p nHeight e = .ok (r.1, matured) ∧
      r.2 = st.vcTxUndo ++ e.undo :: matured := by
  simp only [connectViews, Except.bind_eq_ok] at h
  obtain ⟨st, hst, e, he, ⟨vs', matured⟩, hm, hr⟩ := h
  cases hr
  exact ⟨st, e, matured, hst, he, hm, rfl⟩

/-- A block other than genesis that `ConnectBlock` accepted for good. -/
theorem connectBlock_ok {files : UndoFiles} {out : Connected}
    (h : b.connectBlock node vs p cache files false = .ok out)
    (hgen : b.getHash node.cr.Hash ≠ node.cfg.cHashGenesisBlock) :
    ∃ pIndex pPrev vs' undo, p = pIndex :: pPrev ∧
      b.Checked node vs.view vs.scriptDB true true ∧
      PBlockIndex.hash pPrev = vs.view.cHashBlock ∧
      b.connectViews node vs p pIndex.nHeight cache = .ok (vs', undo) ∧
      b.connectRecords node pIndex pPrev cache files vs' undo = .ok out := by
  simp only [connectBlock, Bool.not_false, Except.bind_eq_ok] at h
  obtain ⟨_, hcheck, h⟩ := h
  cases p with
  | nil => cases h
  | cons pIndex pPrev =>
    simp only [Except.bind_eq_ok, if_neg hgen] at h
    obtain ⟨_, hprev, ⟨vs', undo⟩, hviews, hrec⟩ := h
    have hprev' := (Exec.require_eq_ok (Exec.fails_throw _)).mp hprev
    exact ⟨pIndex, pPrev, vs', undo, rfl, checkBlock_ok hcheck, by simpa using hprev', hviews, hrec⟩

end

end CBlock

end Dacrs
