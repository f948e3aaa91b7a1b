import Dacrs.TransactionUndo
import Dacrs.CacheWindow
import Dacrs.Conservation
import Dacrs.SampleChain

/-!
# Disconnecting the block that was connected

`DisconnectBlock` after `ConnectBlock`: the records are undone in reverse, the matured coinbase
first, with the logs of the transaction index in front of its own.  Each transaction's undo is taken
to invert the transaction where `ConnectBlock` executed it; `disconnectBlock_connectBlock` says that
the whole block is then undone.
-/

open Codec (Bytes)

namespace Dacrs

/-! ## An undo does not look at the best block -/

def Views.setBestBlock (vs : Views) (hash : Uint256) : Views :=
  ⟨vs.view.setBestBlock hash, vs.scriptDB⟩

section
variable {node node' : Node} {v : CAccountViewCache} {vs ws : Views} {undo : CTxUndo} (hash : Uint256)

theorem undoAccountLog_setBestBlock (cr : Crypto) (type : EmTxType) (log : CAccountLog) :
    undoAccountLog cr type (v.setBestBlock hash) log
      = (fun v => v.setBestBlock hash) <$> undoAccountLog cr type v log := by
  unfold undoAccountLog
  rw [CAccountViewCache.setBestBlock_accounts]
  cases v.accounts.lookup log.cKeyID with
  | none => rfl
  | some a =>
    dsimp only
    split <;> rfl

theorem undoAccountLogs_setBestBlock (cr : Crypto) (type : EmTxType) (logs : List CAccountLog) :
    logs.foldlM (undoAccountLog cr type) (v.setBestBlock hash)
      = (fun v => v.setBestBlock hash) <$> logs.foldlM (undoAccountLog cr type) v := by
  induction logs generalizing v with
  | nil => rfl
  | cons log logs ih =>
    rw [List.foldlM_cons, List.foldlM_cons, undoAccountLog_setBestBlock]
    cases undoAccountLog cr type v log with
    | error e => rfl
    | ok v₁ => exact ih

theorem getAccount_setBestBlock (cr : Crypto) (id : CUserID) :
    (v.setBestBlock hash).getAccount cr id = v.getAccount cr id := by
  cases id <;> rfl

theorem getKeyId_setBestBlock (cr : Crypto) (id : CUserID) :
    (v.setBestBlock hash).getKeyId cr id = v.getKeyId cr id := by
  cases id <;> rfl

/-- The generic undo. -/
theorem undoExecuteBase_setBestBlock (cr : Crypto) (type : EmTxType) (txHash : Uint256) :
    undoExecuteBase cr type txHash (vs.setBestBlock hash) undo
      = (fun ws => ws.setBestBlock hash) <$> undoExecuteBase cr type txHash vs undo := by
  have hview := undoAccountLogs_setBestBlock (v := vs.view) hash cr type undo.vcAccountLog.reverse
  unfold undoExecuteBase Views.setBestBlock
  rw [hview]
  cases undo.vcAccountLog.reverse.foldlM (undoAccountLog cr type) vs.view with
  | error e => rfl
  | ok view =>
    dsimp only [Except.map_ok, Except.ok_bind]
    cases undo.vcScriptOperLog.reverse.foldlM (undoScriptLog "bad-save-scriptdb") vs.scriptDB <;> rfl

theorem CRegisterAccountTx.undoExecuteTx_setBestBlock (tx : CRegisterAccountTx) (nIndex nHeight : ℤ) :
    tx.undoExecuteTx node nIndex nHeight (vs.setBestBlock hash) undo
      = (fun ws => ws.setBestBlock hash) <$> tx.undoExecuteTx node nIndex nHeight vs undo := by
  have hreg : (vs.view.setBestBlock hash).getAccountReg (.ofPosition nHeight nIndex)
      = vs.view.getAccountReg (.ofPosition nHeight nIndex) := rfl
  unfold undoExecuteTx Views.setBestBlock
  dsimp only
  rw [hreg, getKeyId_setBestBlock]
  cases Exec.ofOption (vs.view.getAccountReg (.ofPosition nHeight nIndex))
      (Exec.updateFail "bad-read-accountdb") with
  | error e => rfl
  | ok a =>
    rw [Except.ok_bind, Except.ok_bind]
    cases tx.undoFee ((vs.view.getKeyId node.cr (.regID (.ofPosition nHeight nIndex))).getD 0)
        undo a with
    | error e => rfl
    | ok a' =>
      -- the account is put back or erased
      rw [Except.ok_bind, Except.ok_bind]
      by_cases hempty : a'.isEmptyValue = true
      · simp only [hempty, not_true_eq_false, if_false]
        cases tx.cUserId <;> rfl
      · simp only [hempty, Bool.false_eq_true, not_false_eq_true, if_true]
        rfl

theorem CRegisterAppTx.undoExecuteTx_setBestBlock (tx : CRegisterAppTx) (nIndex nHeight : ℤ) :
    tx.undoExecuteTx node nIndex nHeight (vs.setBestBlock hash) undo
      = (fun ws => ws.setBestBlock hash) <$> tx.undoExecuteTx node nIndex nHeight vs undo := by
  unfold undoExecuteTx eraseContract Views.setBestBlock
  dsimp only
  rw [getAccount_setBestBlock]
  cases Exec.ofOption (vs.view.getAccount node.cr tx.cRegAcctId)
      (Exec.updateFail "bad-read-accountdb") with
  | error e => rfl
  | ok a =>
    rw [Except.ok_bind, Except.ok_bind]
    split
    · rw [Except.ok_bind, Except.ok_bind]
      cases undo.vcScriptOperLog.reverse.foldlM (undoScriptLog "undo-scriptdb-failed")
        vs.scriptDB <;> rfl
    · cases (vs.scriptDB.eraseScript (CRegID.ofPosition nHeight nIndex).getVec6).onFalse
          (updateFailCall "erase-script-failed") with
      | error e => rfl
      | ok s =>
        simp only [Except.ok_bind, Except.pure_eq_ok]
        cases undo.vcScriptOperLog.reverse.foldlM (undoScriptLog "undo-scriptdb-failed") s <;> rfl

/-- Of the node only the hash functions matter. -/
theorem CBaseTransaction.undoExecuteTx_congr (hcr : node'.cr = node.cr) (tx : CBaseTransaction)
    (nIndex nHeight : ℤ) :
    tx.undoExecuteTx node' nIndex nHeight vs undo = tx.undoExecuteTx node nIndex nHeight vs undo := by
  cases tx with
  | registerAccount tx =>
    show tx.undoExecuteTx node' nIndex nHeight vs undo = tx.undoExecuteTx node nIndex nHeight vs undo
    unfold CRegisterAccountTx.undoExecuteTx
    rw [hcr]
  | registerApp tx =>
    show tx.undoExecuteTx node' nIndex nHeight vs undo = tx.undoExecuteTx node nIndex nHeight vs undo
    unfold CRegisterAppTx.undoExecuteTx CRegisterAppTx.eraseContract
    rw [hcr]
  | reward tx =>
    show undoExecuteBase node'.cr _ _ vs undo = undoExecuteBase node.cr _ _ vs undo
    rw [hcr]
  | transaction tx =>
    show undoExecuteBase node'.cr _ _ vs undo = undoExecuteBase node.cr _ _ vs undo
    rw [hcr]

theorem CBaseTransaction.undoExecuteTx_setBestBlock (tx : CBaseTransaction) {nIndex nHeight : ℤ}
    (h : tx.undoExecuteTx node nIndex nHeight vs undo = .ok ws) :
    tx.undoExecuteTx node nIndex nHeight (vs.setBestBlock hash) undo
      = .ok (ws.setBestBlock hash) := by
  have hmap : tx.undoExecuteTx node nIndex nHeight (vs.setBestBlock hash) undo
      = (fun ws => ws.setBestBlock hash) <$> tx.undoExecuteTx node nIndex nHeight vs undo := by
    cases tx with
    | registerAccount tx => exact tx.undoExecuteTx_setBestBlock hash nIndex nHeight
    | registerApp tx => exact tx.undoExecuteTx_setBestBlock hash nIndex nHeight
    | reward tx => exact undoExecuteBase_setBestBlock hash _ _ _
    | transaction tx => exact undoExecuteBase_setBestBlock hash _ _ _
  rw [hmap, h]
  rfl

end

/-! ## Logs that put a value back -/

namespace CScriptDBViewCache

variable {s t : CScriptDBViewCache} {logs logs' : List CScriptDBOperLog}

/-- The undo of a record that is counted nowhere. -/
def putBack (s : CScriptDBViewCache) (log : CScriptDBOperLog) : CScriptDBViewCache :=
  s.setData log.vchKey log.vchValue

theorem undoScriptLogs_putBack (reason : String)
    (hplain : ∀ log ∈ logs, log.vchKey.take 4 ≠ dataPrefix) :
    logs.foldlM (undoScriptLog reason) s = .ok (logs.foldl putBack s) := by
  induction logs generalizing s with
  | nil => rfl
  | cons log logs ih =>
    have hlog : undoScriptLog reason s log = .ok (s.putBack log) := by
      unfold undoScriptLog undoScriptData
      rw [if_neg (hplain log List.mem_cons_self)]
      rfl
    rw [List.foldlM_cons, hlog, Except.ok_bind, List.foldl_cons]
    exact ih fun l hl => hplain l (List.mem_cons_of_mem log hl)

theorem foldl_putBack_setData {key : Bytes} (value : Bytes) (hne : ∀ log ∈ logs, log.vchKey ≠ key) :
    logs.foldl putBack (s.setData key value) = (logs.foldl putBack s).setData key value := by
  induction logs generalizing s with
  | nil => rfl
  | cons log logs ih =>
    have hcomm : (s.setData key value).putBack log = (s.putBack log).setData key value :=
      s.setData_comm value _ (hne log List.mem_cons_self)
    rw [List.foldl_cons, List.foldl_cons, hcomm]
    exact ih fun l hl => hne l (List.mem_cons_of_mem log hl)

/-- Logs of different keys are put back in either order. -/
theorem foldl_putBack_comm (hne : ∀ log ∈ logs, ∀ log' ∈ logs', log.vchKey ≠ log'.vchKey) :
    logs.foldl putBack (logs'.foldl putBack s) = logs'.foldl putBack (logs.foldl putBack s) := by
  induction logs' generalizing s with
  | nil => rfl
  | cons log' logs' ih =>
    have hone : logs.foldl putBack (s.putBack log') = (logs.foldl putBack s).putBack log' :=
      foldl_putBack_setData log'.vchValue fun l hl => hne l hl log' List.mem_cons_self
    rw [List.foldl_cons, List.foldl_cons, ← hone]
    exact ih fun l hl l' hl' => hne l hl l' (List.mem_cons_of_mem log' hl')

end CScriptDBViewCache

namespace CBlock

open CScriptDBViewCache (putBack dataPrefix addrPrefix txIndexKey)

variable {s t : CScriptDBViewCache} {logs : List CScriptDBOperLog}

/-- One more entry, one more log. -/
theorem writeTxIndex_snoc (s : CScriptDBViewCache) (vPos : List (Bytes × Bytes)) (item : Bytes × Bytes) :
    writeTxIndex s (vPos ++ [item])
      = ((writeTxIndex s vPos).1.setData item.1 item.2,
        (writeTxIndex s vPos).2 ++ [⟨item.1, (writeTxIndex s vPos).1.oldValue item.1⟩]) := by
  unfold writeTxIndex
  rw [List.foldl_append]
  rfl

/-- What `WriteTxIndex` logs: the records as they were, under the keys it wrote. -/
theorem writeTxIndex_ok {vPos : List (Bytes × Bytes)} (h : writeTxIndex s vPos = (t, logs)) :
    logs.reverse.foldl putBack t = s ∧ ∀ log ∈ logs, ∃ item ∈ vPos, log.vchKey = item.1 := by
  induction vPos using List.reverseRecOn generalizing t logs with
  | nil =>
    obtain ⟨rfl, rfl⟩ := Prod.mk.inj h
    exact ⟨rfl, fun log hlog => by cases hlog⟩
  | append_singleton vPos item ih =>
    obtain ⟨hback, hkeys⟩ := @ih (writeTxIndex s vPos).1 (writeTxIndex s vPos).2 rfl
    rw [writeTxIndex_snoc] at h
    obtain ⟨rfl, rfl⟩ := Prod.mk.inj h
    constructor
    · have hlast : ((writeTxIndex s vPos).1.setData item.1 item.2).putBack
          ⟨item.1, (writeTxIndex s vPos).1.oldValue item.1⟩ = (writeTxIndex s vPos).1 := by
        unfold putBack
        rw [CScriptDBViewCache.setData_setData, CScriptDBViewCache.setData_oldValue]
      rw [List.reverse_append, List.reverse_singleton, List.singleton_append, List.foldl_cons, hlast,
        hback]
    · intro log hlog
      rcases List.mem_append.mp hlog with hold | hnew
      · obtain ⟨item', hitem, hkey⟩ := hkeys log hold
        exact ⟨item', List.mem_append_left _ hitem, hkey⟩
      · obtain rfl := List.mem_singleton.mp hnew
        exact ⟨item, List.mem_append_right _ List.mem_cons_self, rfl⟩

theorem txPositions_keys {Hash : Bytes → Uint256} {pos : DiskBlockPos} {txs : List CBaseTransaction}
    {offset : UInt32} {item : Bytes × Bytes} (h : item ∈ txPositions Hash pos offset txs) :
    ∃ hash, item.1 = txIndexKey hash := by
  induction txs generalizing offset with
  | nil => cases h
  | cons tx txs ih =>
    rcases List.mem_cons.mp h with rfl | hrest
    · exact ⟨tx.getHash Hash, rfl⟩
    · exact ih hrest

theorem txIndexKey_ne_addrPrefix (hash : Uint256) : txIndexKey hash ≠ addrPrefix := by
  intro h
  have hhead := congrArg List.head? h
  simp [txIndexKey, CScriptDBViewCache.txIndexPrefix, addrPrefix] at hhead

theorem txIndexKey_take (hash : Uint256) : (txIndexKey hash).take 4 ≠ dataPrefix := by
  intro h
  have hhead := congrArg List.head? h
  simp [txIndexKey, CScriptDBViewCache.txIndexPrefix, dataPrefix] at hhead

/-! ## The last record -/

/-- A coinbase logs the bare prefix of the address index at most. -/
theorem executeTx_reward_keys {node : Node} {tx : CRewardTransaction} {nIndex nHeight : ℤ}
    {nFuelRate : Int32} {vs : Views} {e : Executed}
    (h : (CBaseTransaction.reward tx).executeTx node nIndex nHeight nFuelRate vs = .ok e) :
    ∀ log ∈ e.undo.vcScriptOperLog, log.vchKey = addrPrefix := by
  obtain ⟨r, a, b, -, -, -, -, -, hindex⟩ := CRewardTransaction.executeTx_cases h
  have hrun : ∀ (keys : List CKeyID) (hash : Uint256)
      (st : CScriptDBViewCache × List CScriptDBOperLog),
      (∀ log ∈ st.2, log.vchKey = addrPrefix) →
      ∀ log ∈ (keys.foldl (indexAddress nHeight nIndex hash) st).2, log.vchKey = addrPrefix := by
    intro keys hash
    induction keys with
    | nil => exact fun _ hst => hst
    | cons k keys ih =>
      intro st hst
      apply ih
      intro log hlog
      rcases List.mem_append.mp hlog with hold | hnew
      · exact hst log hold
      · rw [List.mem_singleton.mp hnew]
  unfold CRewardTransaction.indexReward at hindex
  split at hindex
  · unfold writeAddressIndex at hindex
    split at hindex
    · rw [Except.bind_eq_ok] at hindex
      obtain ⟨keys, -, hindex⟩ := hindex
      have hlogs : _ = e.undo.vcScriptOperLog := congrArg Prod.snd (Except.ok.inj hindex)
      rw [← hlogs]
      exact hrun keys _ _ (by simp)
    · have hlogs : [] = e.undo.vcScriptOperLog := congrArg Prod.snd (Except.ok.inj hindex)
      rw [← hlogs]
      simp
  · have hlogs : [] = e.undo.vcScriptOperLog := congrArg Prod.snd (Except.ok.inj hindex)
    rw [← hlogs]
    simp

/-- The index logs in front of a coinbase's logs are undone last, and do not disturb them. -/
theorem undo_indexed {node : Node} {tx : CRewardTransaction} {nIndex nHeight : ℤ} {vs ws : Views}
    {undo : CTxUndo} {front : List CScriptDBOperLog}
    (hown : ∀ log ∈ undo.vcScriptOperLog, log.vchKey = addrPrefix)
    (hkeys : ∀ log ∈ front, ∃ hash, log.vchKey = txIndexKey hash)
    (hback : front.reverse.foldl putBack t = vs.scriptDB)
    (h : (CBaseTransaction.reward tx).undoExecuteTx node nIndex nHeight vs undo = .ok ws) :
    (CBaseTransaction.reward tx).undoExecuteTx node nIndex nHeight ⟨vs.view, t⟩
      { undo with vcScriptOperLog := front ++ undo.vcScriptOperLog } = .ok ws := by
  have hbase : ∀ vs undo, (CBaseTransaction.reward tx).undoExecuteTx node nIndex nHeight vs undo
      = undoExecuteBase node.cr .reward ((CBaseTransaction.reward tx).getHash node.cr.Hash) vs undo :=
    fun _ _ => rfl
  have hplain : ∀ log ∈ undo.vcScriptOperLog.reverse, log.vchKey.take 4 ≠ dataPrefix := by
    intro log hlog
    rw [hown log (List.mem_reverse.mp hlog)]
    decide
  have hplain' : ∀ log ∈ front.reverse, log.vchKey.take 4 ≠ dataPrefix := by
    intro log hlog
    obtain ⟨hash, hhash⟩ := hkeys log (List.mem_reverse.mp hlog)
    rw [hhash]
    exact txIndexKey_take hash
  rw [hbase, undoExecuteBase_eq_ok] at h ⊢
  obtain ⟨hview, s, hs, hws⟩ := h
  refine ⟨hview, s, ?_, hws⟩
  rw [CScriptDBViewCache.undoScriptLogs_putBack _ hplain] at hs
  rw [List.reverse_append, List.foldlM_append,
    CScriptDBViewCache.undoScriptLogs_putBack _ hplain, Except.ok_bind,
    CScriptDBViewCache.undoScriptLogs_putBack _ hplain', ← hs, ← hback]
  refine congrArg Except.ok (CScriptDBViewCache.foldl_putBack_comm ?_)
  intro log hlog log' hlog' heq
  obtain ⟨hash, hhash⟩ := hkeys log (List.mem_reverse.mp hlog)
  apply txIndexKey_ne_addrPrefix hash
  rw [← hhash, heq, hown log' (List.mem_reverse.mp hlog')]

theorem indexUndo_snoc (front : List CScriptDBOperLog) (undos : CBlockUndo) (undo : CTxUndo) :
    indexUndo front (undos ++ [undo])
      = undos ++ [{ undo with vcScriptOperLog := front ++ undo.vcScriptOperLog }] := by
  induction undos with
  | nil => rfl
  | cons u undos ih =>
    have hne : undos ++ [undo] ≠ [] := by simp
    rw [List.cons_append, List.cons_append, ← ih]
    cases hl : undos ++ [undo] with
    | nil => exact absurd hl hne
    | cons w rest => rfl

/-! ## What is executed -/

/-- A transaction `ConnectBlock` executes: its place in the block, -1 for the matured coinbase, the
views it starts from and what it leaves. -/
inductive Executes (node : Node) (b : CBlock) (p : PBlockIndex) (nHeight : ℤ)
    (cache : CTransactionDBCache) (vs : Views) : CBaseTransaction → ℤ → Views → Executed → Prop where
  | other {front rest : List (CBaseTransaction × ℕ)} {item : CBaseTransaction × ℕ} {st : TxsRun}
      {e : Executed} (split : b.otherTxs = front ++ item :: rest)
      (before : front.foldlM (b.connectTx node nHeight cache) ⟨vs, 0, 0, []⟩ = .ok st)
      (run : item.1.executeTx node item.2 nHeight b.nFuelRate st.views = .ok e) :
      Executes node b p nHeight cache vs item.1 item.2 st.views e
  | reward {st : TxsRun} {tx : CRewardTransaction} {e : Executed}
      (before : b.connectTxs node nHeight cache vs = .ok st) (first : b.rewardTx = .ok tx)
      (run : (CBaseTransaction.reward tx).executeTx node 0 nHeight 0 st.views = .ok e) :
      Executes node b p nHeight cache vs (.reward tx) 0 st.views e
  | matured {st : TxsRun} {e e' : Executed} {q : CBlockIndex} {rest : PBlockIndex} {old : CBlock}
      {tx : CBaseTransaction} (before : b.connectTxs node nHeight cache vs = .ok st)
      (now : b.connectReward node nHeight cache st.views = .ok e) (high : 0 < nHeight - coinbaseMaturity)
      (back : p.drop coinbaseMaturity = q :: rest) (read : node.readBlockFromDisk q = some old)
      (first : old.firstTx = .ok tx) (run : tx.executeTx node (-1) nHeight 0 e.views = .ok e') :
      Executes node b p nHeight cache vs tx (-1) e.views e'

variable {node node' : Node} {b : CBlock} {p : PBlockIndex} {nHeight : ℤ}
  {cache : CTransactionDBCache} {vs : Views}

/-- The loop leaves one record for each transaction, and each undoes its own. -/
theorem connectTxs_trail {st : TxsRun}
    (hundo : ∀ tx i vs' e, b.Executes node p nHeight cache vs tx i vs' e →
      tx.undoExecuteTx node i nHeight e.views e.undo = .ok vs')
    (h : b.connectTxs node nHeight cache vs = .ok st) :
    st.vcTxUndo.length = b.otherTxs.length ∧
      Undo.Trail (disconnectTx node nHeight) vs (b.otherTxs.zip st.vcTxUndo) st.views := by
  refine Except.foldlM_prefix_invariant (fun front st => st.vcTxUndo.length = front.length ∧
      Undo.Trail (disconnectTx node nHeight) vs (front.zip st.vcTxUndo) st.views)
    (b.connectTx node nHeight cache) ?_ ⟨rfl, .nil⟩ (connectTxs_ok h).1
  rintro front item rest st₁ st₂ hsplit hbefore ⟨hlen, htrail⟩ hstep
  obtain ⟨e, llFuel, hrun, -, -, rfl⟩ := connectTx_ok hstep
  have hone := hundo _ _ _ _ (.other hsplit hbefore hrun)
  refine ⟨by simp [hlen], ?_⟩
  dsimp only
  rw [List.zip_append hlen.symm, List.zip_cons_cons, List.zip_nil_right]
  exact htrail.snoc (item, e.undo) hone

/-! ## The undo file -/

theorem valid_status_haveUndo (x : UInt32) :
    ((x &&& ~~~ blockValidMask) ||| blockValidScripts) &&& blockHaveUndo = x &&& blockHaveUndo := by
  apply UInt32.toBitVec_inj.mp
  unfold blockValidMask blockValidScripts blockHaveUndo
  simp only [UInt32.toBitVec_and, UInt32.toBitVec_or, UInt32.toBitVec_not, UInt32.toBitVec_ofNat]
  ext i hi
  simp only [BitVec.getElem_and, BitVec.getElem_or, BitVec.getElem_not]
  have hi' : i < 32 := hi
  interval_cases i <;> simp

theorem or_haveUndo_and (x : UInt32) : (x ||| blockHaveUndo) &&& blockHaveUndo ≠ 0 := by
  intro h
  have hbit := congrArg (fun w : UInt32 => w.toBitVec.getLsbD 4) h
  simp [blockHaveUndo] at hbit

/-- The entry has a place in a block file, and no undo data yet or the block's own. -/
structure UndoPlace (node : Node) (pIndex : CBlockIndex) (pPrev : PBlockIndex) (undo : CBlockUndo)
    (files : UndoFiles) : Prop where
  file : pIndex.nFile ≠ -1
  record : pIndex.getUndoPos.isNull = true ∨
    files.lookup (pIndex.getUndoPos.nFile, pIndex.getUndoPos.unPos)
      = some (undo.record node.cr.Hash (PBlockIndex.hash pPrev))

theorem not_isNull_iff {pIndex : CBlockIndex} (hfile : pIndex.nFile ≠ -1) :
    ¬ pIndex.getUndoPos.isNull = true ↔ pIndex.unStatus &&& blockHaveUndo ≠ 0 := by
  unfold CBlockIndex.getUndoPos
  by_cases h : pIndex.unStatus &&& blockHaveUndo = 0
  · simp [h, DiskBlockPos.null, DiskBlockPos.isNull]
  · rw [if_pos h]
    simp [h, DiskBlockPos.isNull, hfile]

/-- After `ConnectBlock` the entry points to the block's undo data. -/
theorem connectEntry_record {pIndex pIndex' : CBlockIndex} {pPrev : PBlockIndex} {undo : CBlockUndo}
    {files files' : UndoFiles} (hplace : UndoPlace node pIndex pPrev undo files)
    (h : connectEntry node pIndex pPrev undo files = .ok (pIndex', files')) :
    ¬ pIndex'.getUndoPos.isNull = true ∧
      files'.lookup (pIndex'.getUndoPos.nFile, pIndex'.getUndoPos.unPos)
        = some (undo.record node.cr.Hash (PBlockIndex.hash pPrev)) := by
  have hnot : ∀ q : CBlockIndex, q.nFile = pIndex.nFile → q.unStatus &&& blockHaveUndo ≠ 0 →
      ¬ q.getUndoPos.isNull = true := by
    intro q hq hhave
    apply (not_isNull_iff _).mpr hhave
    rw [hq]
    exact hplace.file
  by_cases hnull : pIndex.getUndoPos.isNull = true
  · unfold connectEntry writeUndo at h
    rw [if_pos (.inl hnull), if_pos hnull, Except.bind_eq_ok] at h
    obtain ⟨⟨q, qs⟩, hnew, h⟩ := h
    dsimp only at h
    rw [Except.bind_eq_ok] at h
    obtain ⟨_, -, h⟩ := h
    obtain ⟨rfl, rfl⟩ := Prod.mk.inj (Except.ok.inj h)
    unfold writeNewUndo at hnew
    split at hnew
    · cases hnew
    · next prev rest =>
      split at hnew
      · cases hnew
      · next pos hpos =>
        rw [Except.bind_eq_ok] at hnew
        obtain ⟨_, -, hnew⟩ := hnew
        obtain ⟨rfl, rfl⟩ := Prod.mk.inj (Except.ok.inj hnew)
        have hhave : ((pIndex.unStatus ||| blockHaveUndo) &&& ~~~ blockValidMask ||| blockValidScripts)
            &&& blockHaveUndo ≠ 0 := by
          rw [valid_status_haveUndo]
          exact or_haveUndo_and _
        refine ⟨hnot _ rfl hhave, ?_⟩
        unfold CBlockIndex.getUndoPos
        rw [if_pos hhave]
        exact Store.lookup_put_self _ _ _
  · -- the data are there already
    have hrecord := hplace.record.resolve_left hnull
    have hhave := (not_isNull_iff hplace.file).mp hnull
    unfold connectEntry writeUndo at h
    split at h
    · rw [Except.ok_bind] at h
      dsimp only at h
      rw [Except.bind_eq_ok] at h
      obtain ⟨_, -, h⟩ := h
      obtain ⟨rfl, rfl⟩ := Prod.mk.inj (Except.ok.inj h)
      have hhave' : (pIndex.unStatus &&& ~~~ blockValidMask ||| blockValidScripts)
          &&& blockHaveUndo ≠ 0 := by
        rw [valid_status_haveUndo]
        exact hhave
      refine ⟨hnot _ rfl hhave', ?_⟩
      unfold CBlockIndex.getUndoPos at hrecord ⊢
      rw [if_pos hhave] at hrecord
      rw [if_pos hhave']
      exact hrecord
    · obtain ⟨rfl, rfl⟩ := Prod.mk.inj (Except.ok.inj h)
      exact ⟨hnull, hrecord⟩

/-! ## The two views -/

/-- A block on top of a chain: its entry counts the blocks below, and the blocks on disk begin with
their coinbase. -/
structure OnChain (node : Node) (pIndex : CBlockIndex) (pPrev : PBlockIndex) : Prop where
  height : pIndex.nHeight = pPrev.length
  above : pPrev ≠ []
  coinbase : ∀ q d, node.readBlockFromDisk q = some d → ∃ r rest, d.vptx = .reward r :: rest

/-- A node that reads the same blocks with the same hash functions. -/
structure SameDisk (node node' : Node) : Prop where
  cr : node'.cr = node.cr
  cfg : node'.cfg = node.cfg
  disk : node'.disk = node.disk

theorem SameDisk.read (h : SameDisk node node') (q : CBlockIndex) :
    node'.readBlockFromDisk q = node.readBlockFromDisk q := by
  unfold Node.readBlockFromDisk
  rw [h.cr, h.disk]

theorem indexUndo_nil (undo : CBlockUndo) : indexUndo [] undo = undo := by
  induction undo with
  | nil => rfl
  | cons u undo ih =>
    cases undo with
    | nil => rfl
    | cons w rest => exact congrArg (u :: ·) ih

/-- The other transactions are taken back, wherever the best block is. -/
theorem undo_others {st : TxsRun} {nHeight : ℤ} (hsame : SameDisk node node') (hash : Uint256)
    (hlen : st.vcTxUndo.length = b.otherTxs.length)
    (htrail : Undo.Trail (disconnectTx node nHeight) vs (b.otherTxs.zip st.vcTxUndo) st.views)
    (last : CBlockUndo) :
    (b.otherTxs.zip (st.vcTxUndo ++ last)).reverse.foldlM (disconnectTx node' nHeight)
      (st.views.setBestBlock hash) = .ok (vs.setBestBlock hash) := by
  have hzip : b.otherTxs.zip (st.vcTxUndo ++ last) = b.otherTxs.zip st.vcTxUndo := by
    have happ := @List.zip_append _ _ b.otherTxs [] st.vcTxUndo last hlen.symm
    rw [List.append_nil, List.zip_nil_left, List.append_nil] at happ
    exact happ
  rw [hzip]
  refine ((htrail.map (fun vs => vs.setBestBlock hash) ?_).congr ?_).undoAll
  · intro item _ ws vs' hitem
    exact CBaseTransaction.undoExecuteTx_setBestBlock hash item.1.1 hitem
  · intro ws item vs' hitem
    unfold disconnectTx at hitem ⊢
    rw [CBaseTransaction.undoExecuteTx_congr hsame.cr]
    exact hitem

/-- The first transaction and its record. -/
theorem undo_reward {tx : CRewardTransaction} {nIndex nHeight : ℤ} {nFuelRate : Int32} {vs : Views}
    {e : Executed} {t : CScriptDBViewCache} {front : List CScriptDBOperLog} (hsame : SameDisk node node')
    (hash : Uint256)
    (hrun : (CBaseTransaction.reward tx).executeTx node nIndex nHeight nFuelRate vs = .ok e)
    (hundo : (CBaseTransaction.reward tx).undoExecuteTx node nIndex nHeight e.views e.undo = .ok vs)
    (hkeys : ∀ log ∈ front, ∃ hash, log.vchKey = txIndexKey hash)
    (hback : front.reverse.foldl putBack t = e.views.scriptDB) :
    (CBaseTransaction.reward tx).undoExecuteTx node' nIndex nHeight ⟨e.views.view.setBestBlock hash, t⟩
      { e.undo with vcScriptOperLog := front ++ e.undo.vcScriptOperLog }
        = .ok (vs.setBestBlock hash) := by
  rw [CBaseTransaction.undoExecuteTx_congr hsame.cr]
  have hbest := CBaseTransaction.undoExecuteTx_setBestBlock hash (.reward tx) hundo
  have hfront : front.reverse.foldl putBack t = (e.views.setBestBlock hash).scriptDB := hback
  exact undo_indexed (executeTx_reward_keys hrun) hkeys hfront hbest

/-- The entry the matured coinbase is read from. -/
theorem matureIndex_eq (pIndex : CBlockIndex) {pPrev : PBlockIndex}
    (h : 0 < (pPrev.length : ℤ) - coinbaseMaturity) :
    ∃ q rest, matureIndex (pIndex :: pPrev) = .ok (q :: rest) ∧ pPrev.drop 99 = q :: rest := by
  have hmat : coinbaseMaturity = 100 := rfl
  rw [hmat] at h
  cases hdrop : pPrev.drop 99 with
  | nil =>
    have hlen := List.drop_eq_nil_iff.mp hdrop
    omega
  | cons q rest =>
    refine ⟨q, rest, ?_, rfl⟩
    unfold matureIndex
    rw [if_neg (by simp only [List.length_cons, hmat]; omega), hmat, List.drop_succ_cons, hdrop]

/-- The records of a block undo it, also with the logs of further writes in front of the last
record's own. -/
theorem disconnectViews_connectViews {pIndex pIndex' : CBlockIndex} {pPrev : PBlockIndex}
    {vs' : Views} {undo : CBlockUndo} {t : CScriptDBViewCache} {front : List CScriptDBOperLog}
    (hsame : SameDisk node node') (hchain : OnChain node pIndex pPrev) (hash : Uint256)
    (hundo : ∀ tx i vs' e, b.Executes node (pIndex :: pPrev) pIndex.nHeight cache vs tx i vs' e →
      tx.undoExecuteTx node i pIndex.nHeight e.views e.undo = .ok vs')
    (h : b.connectViews node vs (pIndex :: pPrev) pIndex.nHeight cache = .ok (vs', undo))
    (hkeys : ∀ log ∈ front, ∃ hash, log.vchKey = txIndexKey hash)
    (hback : front.reverse.foldl putBack t = vs'.scriptDB) :
    b.disconnectViews node' ⟨vs'.view.setBestBlock hash, t⟩ (pIndex' :: pPrev) pIndex.nHeight
        (indexUndo front undo) = .ok (vs.setBestBlock hash) ∧
      ((indexUndo front undo).length = b.vptx.length ∨
        (indexUndo front undo).length = b.vptx.length + 1) := by
  obtain ⟨st, e, matured, htxs, hreward, hmature, hrecords⟩ := connectViews_ok h
  obtain ⟨hlen, htrail⟩ := connectTxs_trail hundo htxs
  obtain ⟨tx, htx, -, -, -, hrun⟩ := connectReward_ok hreward
  have hfirst : b.firstTx = .ok (.reward tx) ∧ b.vptx.length = b.otherTxs.length + 1 := by
    unfold rewardTx at htx
    split at htx
    · next r rest hv =>
      obtain rfl := Except.ok.inj htx
      unfold firstTx otherTxs
      rw [hv]
      exact ⟨rfl, by simp⟩
    · cases htx
  have hnow := hundo _ _ _ _ (.reward htxs htx hrun)
  dsimp only at hmature hrecords
  unfold disconnectViews disconnectMature
  unfold connectMature at hmature
  by_cases hhigh : 0 < pIndex.nHeight - coinbaseMaturity
  · -- the matured coinbase is on top of the block's own
    rw [if_pos hhigh] at hmature ⊢
    have hheight := hhigh
    rw [hchain.height] at hheight
    obtain ⟨q, rest, hq, hdrop⟩ := matureIndex_eq pIndex hheight
    obtain ⟨q', rest', hq', hdrop'⟩ := matureIndex_eq pIndex' hheight
    obtain ⟨rfl, rfl⟩ := List.cons.inj (hdrop.symm.trans hdrop')
    rw [hq, Except.ok_bind] at hmature
    dsimp only at hmature
    rw [Except.bind_eq_ok] at hmature
    obtain ⟨old, hread, hmature⟩ := hmature
    rw [Except.bind_eq_ok] at hmature
    obtain ⟨oldTx, hold, hmature⟩ := hmature
    rw [Except.bind_eq_ok] at hmature
    obtain ⟨e', hrun', hmature⟩ := hmature
    obtain ⟨rfl, rfl⟩ := Prod.mk.inj (Except.ok.inj hmature)
    have hread' := (Exec.ofOption_eq_ok (Exec.fails_doS _ _ _ _)).mp hread
    have hback' : (pIndex :: pPrev).drop coinbaseMaturity = q :: rest := hdrop
    have hthen := hundo _ _ _ _ (.matured htxs hreward hhigh hback' hread' hold hrun')
    obtain ⟨r, others, hv⟩ := hchain.coinbase q old hread'
    obtain rfl : CBaseTransaction.reward r = oldTx := by
      unfold firstTx at hold
      rw [hv] at hold
      exact Except.ok.inj hold
    have hlast := undo_reward hsame hash hrun' hthen hkeys hback
    have hone := @undo_reward node node' tx 0 pIndex.nHeight 0 st.views e e.views.scriptDB []
      hsame hash hrun hnow (by simp) rfl
    rw [hrecords]
    have hsnoc : st.vcTxUndo ++ [e.undo, e'.undo] = (st.vcTxUndo ++ [e.undo]) ++ [e'.undo] := by simp
    rw [hsnoc, indexUndo_snoc]
    refine ⟨?_, ?_⟩
    · unfold lastUndo
      rw [List.getLast?_concat, List.dropLast_concat]
      simp only [Exec.ofOption, Except.ok_bind]
      rw [hq', Except.ok_bind]
      dsimp only
      rw [hsame.read, hread', Except.ok_bind, hold, Except.ok_bind, hlast, Except.ok_bind,
        Except.pure_eq_ok, Except.ok_bind, hfirst.1, Except.ok_bind]
      dsimp only
      rw [List.getLast?_concat]
      dsimp only
      rw [Except.ok_bind]
      refine Eq.trans ?_ (undo_others hsame hash hlen htrail [e.undo])
      exact congrArg (· >>= _) hone
    · right
      simp only [List.length_append, List.length_cons, List.length_nil, hlen, hfirst.2]
  · rw [if_neg hhigh] at hmature ⊢
    obtain ⟨rfl, rfl⟩ := Prod.mk.inj (Except.ok.inj hmature)
    have hlast := undo_reward hsame hash hrun hnow hkeys hback
    rw [hrecords, indexUndo_snoc]
    refine ⟨?_, ?_⟩
    · unfold lastUndo
      rw [Except.ok_bind]
      dsimp only
      rw [hfirst.1, Except.ok_bind, List.getLast?_concat]
      simp only [Exec.ofOption, Except.ok_bind]
      rw [hlast, Except.ok_bind]
      exact undo_others hsame hash hlen htrail _
    · left
      simp only [List.length_append, List.length_cons, List.length_nil, hlen, hfirst.2]

/-! ## The transaction cache -/

/-- The cache does not list the block, and lists the one that leaves its window with its
transactions. -/
structure CacheReady (node : Node) (b : CBlock) (pIndex : CBlockIndex) (pPrev : PBlockIndex)
    (cache : CTransactionDBCache) : Prop where
  window : 0 < node.cfg.nTxCacheHeight
  hash : b.getHash node.cr.Hash ≠ 0
  fresh : cache.lists node.cr.Hash b = none
  leaving : node.cfg.nTxCacheHeight < pIndex.nHeight → ∀ q d,
    chainAt pPrev (pIndex.nHeight - node.cfg.nTxCacheHeight) = some q →
    node.readBlockFromDisk q = some d → cache.lists node.cr.Hash d = some (d.txHashes node.cr.Hash)

/-- A height below the tip is counted from the bottom. -/
theorem chainAt_cons (pIndex : CBlockIndex) {pPrev : PBlockIndex} {n : ℤ} (h : n < pPrev.length) :
    chainAt (pIndex :: pPrev) n = chainAt pPrev n := by
  unfold chainAt
  by_cases hneg : n < 0
  · rw [if_pos (.inl hneg), if_pos (.inl hneg)]
  · have hlen : ((pIndex :: pPrev).length : ℤ) = pPrev.length + 1 := by
      rw [List.length_cons]
      push_cast
      rfl
    rw [if_neg (by omega), if_neg (by omega)]
    have hi : (pIndex :: pPrev).length - 1 - n.toNat = (pPrev.length - 1 - n.toNat) + 1 := by
      rw [List.length_cons]
      omega
    rw [hi, List.getElem?_cons_succ]

theorem disconnectCache_connectCache {pIndex : CBlockIndex} {pPrev : PBlockIndex}
    {c : CTransactionDBCache} (hsame : SameDisk node node') (hchain : OnChain node pIndex pPrev)
    (hready : CacheReady node b pIndex pPrev cache) (hne : b.vptx ≠ [])
    (h : b.connectCache node (pIndex :: pPrev) pIndex.nHeight cache = .ok c) :
    b.disconnectCache node' pPrev pIndex.nHeight c = .ok cache := by
  have hadd := @CTransactionDBCache.addBlockToCache_lookup cache node.cr.Hash b hne
  have hfresh : cache.mapTxHashByBlockHash.lookup (b.getHash node.cr.Hash) = none := hready.fresh
  unfold disconnectCache
  rw [hsame.cr, hsame.cfg]
  rcases connectCache_ok h with ⟨hlow, rfl⟩ | ⟨hhigh, q, d, hq, hread, hdel⟩
  · -- nothing has left the window
    have hdel : (cache.addBlockToCache node.cr.Hash b).deleteBlockFromCache node.cr.Hash b
        = some cache := by
      refine CTransactionDBCache.deleteBlockFromCache_eq_some_iff.mpr ⟨hready.hash, ?_, ?_⟩
      · unfold CTransactionDBCache.lists
        rw [hadd, Store.lookup_put_self]
        rfl
      · rw [hadd, Store.put_put, ← hfresh, Store.put_lookup]
    rw [hdel]
    simp only [Exec.ofOption, Except.ok_bind]
    rw [if_neg (by omega)]
    rfl
  · have hwindow := hready.window
    have hq' : chainAt pPrev (pIndex.nHeight - node.cfg.nTxCacheHeight) = some q := by
      rw [← hq, chainAt_cons]
      have hheight := hchain.height
      omega
    have hleaving : cache.mapTxHashByBlockHash.lookup (d.getHash node.cr.Hash)
        = some (d.txHashes node.cr.Hash) := hready.leaving hhigh q d hq' hread
    have hother : d.getHash node.cr.Hash ≠ b.getHash node.cr.Hash := by
      intro heq
      rw [heq, hfresh] at hleaving
      cases hleaving
    obtain ⟨r, others, hv⟩ := hchain.coinbase q d hread
    have hne' : d.vptx ≠ [] := by
      rw [hv]
      exact List.cons_ne_nil _ _
    obtain ⟨-, -, hc⟩ := CTransactionDBCache.deleteBlockFromCache_eq_some_iff.mp hdel
    rw [hadd] at hc
    -- without the block, and without the one that left
    obtain ⟨c₁, hc₁⟩ : ∃ c₁ : CTransactionDBCache, c₁ = c.putHashes (b.getHash node.cr.Hash) [] :=
      ⟨_, rfl⟩
    have hmap : c₁.mapTxHashByBlockHash
        = cache.mapTxHashByBlockHash.put (d.getHash node.cr.Hash) none := by
      have hput : c₁.mapTxHashByBlockHash
          = c.mapTxHashByBlockHash.put (b.getHash node.cr.Hash) none := by
        rw [hc₁]
        rfl
      rw [hput, hc, Store.put_comm _ _ _ hother, Store.put_put, ← hfresh,
        Store.put_comm _ _ _ hother.symm, Store.put_lookup]
    have hdel' : c.deleteBlockFromCache node.cr.Hash b = some c₁ := by
      refine CTransactionDBCache.deleteBlockFromCache_eq_some_iff.mpr ⟨hready.hash, ?_, ?_⟩
      · unfold CTransactionDBCache.lists
        rw [hc, Store.lookup_put_ne _ _ hother.symm, Store.lookup_put_self]
        rfl
      · rw [hc₁]
        rfl
    have hback : c₁.addBlockToCache node.cr.Hash d = cache := by
      apply CTransactionDBCache.ext
      rw [CTransactionDBCache.addBlockToCache_lookup hne', hmap, Store.put_put]
      have hstored : some (d.vptx.map (CBaseTransaction.getHash node.cr.Hash))
          = cache.mapTxHashByBlockHash.lookup (d.getHash node.cr.Hash) := hleaving.symm
      rw [hstored, Store.put_lookup]
    rw [hdel']
    simp only [Exec.ofOption, Except.ok_bind]
    rw [if_pos (by omega)]
    unfold cacheLimitBlock
    rw [hsame.cfg, hq']
    simp only [Exec.ofOption, Except.ok_bind, Except.pure_eq_ok, hsame.read, hread, hback]

/-! ## The whole block -/

/-- The parts of a successful `ConnectBlock` after the views. -/
theorem connectRecords_parts {pIndex : CBlockIndex} {pPrev : PBlockIndex} {files : UndoFiles}
    {vs' : Views} {undo : CBlockUndo} {out : Connected}
    (h : b.connectRecords node pIndex pPrev cache files vs' undo = .ok out) :
    out.views = (b.connectIndex node pIndex vs' undo).1.setBestBlock pIndex.hashBlock ∧
      out.cUndoBlock = (b.connectIndex node pIndex vs' undo).2 ∧
      connectEntry node pIndex pPrev out.cUndoBlock files = .ok (out.pBlockIndex, out.files) := by
  unfold connectRecords at h
  rcases hindex : b.connectIndex node pIndex vs' undo with ⟨ws, undo'⟩
  rw [hindex] at h
  dsimp only at h
  rw [Except.bind_eq_ok] at h
  obtain ⟨⟨pIndex', files'⟩, hentry, h⟩ := h
  rw [Except.bind_eq_ok] at h
  obtain ⟨c, -, h⟩ := h
  obtain rfl := Except.ok.inj h
  exact ⟨rfl, rfl, hentry⟩

/-- The index changes script records only, and logs them in the last record. -/
theorem connectIndex_parts (node : Node) (b : CBlock) (pIndex : CBlockIndex) (vs : Views)
    (undo : CBlockUndo) : ∃ front, (b.connectIndex node pIndex vs undo).2 = indexUndo front undo ∧
      (b.connectIndex node pIndex vs undo).1.view = vs.view ∧
      (∀ log ∈ front, ∃ hash, log.vchKey = txIndexKey hash) ∧
      front.reverse.foldl putBack (b.connectIndex node pIndex vs undo).1.scriptDB = vs.scriptDB := by
  unfold connectIndex
  by_cases hon : node.cfg.bTxIndex = true
  · rw [if_pos hon]
    dsimp only
    rcases hwrite : writeTxIndex vs.scriptDB (txPositions node.cr.Hash pIndex.getBlockPos
      (UInt32.ofNat (Codec.writeCompactSize b.vptx.length).length) b.vptx) with ⟨t, logs⟩
    obtain ⟨hback, hkeys⟩ := writeTxIndex_ok hwrite
    refine ⟨logs, rfl, rfl, ?_, hback⟩
    intro log hlog
    obtain ⟨item, hitem, hkey⟩ := hkeys log hlog
    obtain ⟨hash, hhash⟩ := txPositions_keys hitem
    exact ⟨hash, hkey.trans hhash⟩
  · rw [if_neg hon]
    exact ⟨[], (indexUndo_nil undo).symm, rfl, by simp, rfl⟩

/-- The undo data are read back. -/
theorem readUndo_ok {pIndex pIndex' : CBlockIndex} {pPrev : PBlockIndex} {undo : CBlockUndo}
    {files files' : UndoFiles} (hcr : node'.cr = node.cr) (hchain : OnChain node pIndex pPrev)
    (hplace : UndoPlace node pIndex pPrev undo files) (hfits : undo.Fits)
    (hlen : undo.length = b.vptx.length ∨ undo.length = b.vptx.length + 1)
    (h : connectEntry node pIndex pPrev undo files = .ok (pIndex', files')) :
    readUndo node' b pIndex' pPrev files' = .ok undo := by
  obtain ⟨hnull, hrecord⟩ := connectEntry_record hplace h
  unfold readUndo
  dsimp only
  rw [(Exec.require_eq_ok (u := ()) Exec.fails_returnFalse).mpr hnull, Except.ok_bind]
  cases hprev : pPrev with
  | nil => exact absurd hprev hchain.above
  | cons prev rest =>
    rw [hprev] at hrecord
    have hread := CBlockUndo.readFromDisk_record node.cr.Hash prev.hashBlock undo [] hfits
    rw [List.append_nil] at hread
    have hfile : files'.lookup (pIndex'.getUndoPos.nFile, pIndex'.getUndoPos.unPos)
        = some (undo.record node.cr.Hash prev.hashBlock) := hrecord
    simp only [hfile, Exec.ofOption, Except.ok_bind]
    rw [hcr, hread]
    simp only [Except.ok_bind]
    rw [(Exec.require_eq_ok (u := ()) Exec.fails_returnFalse).mpr hlen]
    rfl

/-- A block that `ConnectBlock` accepted is taken back by `DisconnectBlock` as if it had never been
there, if each of its transactions is. -/
theorem disconnectBlock_connectBlock {pIndex : CBlockIndex} {pPrev : PBlockIndex} {files : UndoFiles}
    {out : Connected} (hsame : SameDisk node node') (hchain : OnChain node pIndex pPrev)
    (hready : CacheReady node b pIndex pPrev cache)
    (hundo : ∀ tx i vs' e, b.Executes node (pIndex :: pPrev) pIndex.nHeight cache vs tx i vs' e →
      tx.undoExecuteTx node i pIndex.nHeight e.views e.undo = .ok vs')
    (hgenesis : b.getHash node.cr.Hash ≠ node.cfg.cHashGenesisBlock)
    (h : b.connectBlock node vs (pIndex :: pPrev) cache files false = .ok out)
    (hplace : UndoPlace node pIndex pPrev out.cUndoBlock files) (hfits : out.cUndoBlock.Fits) :
    b.disconnectBlock node' out.views (out.pBlockIndex :: pPrev) out.cTxCache out.files
      = .ok (vs, cache) := by
  obtain ⟨pIndex₀, pPrev₀, vs', undo, heq, hcheck, hprev, hviews, hrecords⟩ :=
    connectBlock_ok h hgenesis
  obtain ⟨rfl, rfl⟩ := List.cons.inj heq
  obtain ⟨hhash, hheight, hcache⟩ := connectRecords_ok hrecords
  obtain ⟨hout, hundoBlock, hentry⟩ := connectRecords_parts hrecords
  obtain ⟨front, hindex, hview, hkeys, hback⟩ := connectIndex_parts node b pIndex vs' undo
  obtain ⟨r, rest, hv⟩ := hcheck.coinbase
  have hne : b.vptx ≠ [] := by
    rw [hv]
    exact List.cons_ne_nil _ _
  have hdis : b.disconnectViews node' ⟨vs'.view.setBestBlock pIndex.hashBlock,
        (b.connectIndex node pIndex vs' undo).1.scriptDB⟩ (out.pBlockIndex :: pPrev) pIndex.nHeight
        out.cUndoBlock = .ok (vs.setBestBlock pIndex.hashBlock) ∧
      (out.cUndoBlock.length = b.vptx.length ∨ out.cUndoBlock.length = b.vptx.length + 1) := by
    rw [hundoBlock, hindex]
    exact disconnectViews_connectViews hsame hchain pIndex.hashBlock hundo hviews hkeys hback
  have hviews' : out.views = ⟨vs'.view.setBestBlock pIndex.hashBlock,
      (b.connectIndex node pIndex vs' undo).1.scriptDB⟩ := by
    rw [hout, Views.setBestBlock, hview]
  have hread := readUndo_ok hsame.cr hchain hplace hfits hdis.2 hentry
  have hbest : out.pBlockIndex.hashBlock = out.views.view.cHashBlock := by
    rw [hhash, hviews']
    rfl
  unfold disconnectBlock
  dsimp only
  rw [(Exec.require_eq_ok (u := ()) (Exec.fails_throw _)).mpr hbest, Except.ok_bind, hread, Except.ok_bind,
    hheight, hviews', hdis.1, Except.ok_bind,
    disconnectCache_connectCache hsame hchain hready hne hcache, Except.ok_bind, hprev]
  rfl

/-! ### A coinbase and a transfer -/

/-- The undo of a coinbase or of a matured one puts the account back, the address index being off. -/
theorem undo_reward_restores {tx : CRewardTransaction} {nIndex nHeight : ℤ} {nFuelRate : Int32}
    {vs : Views} {e : Executed} (hoff : node.cfg.bAddressToTx = false) (hkeyed : vs.view.WellKeyed)
    (h : (CBaseTransaction.reward tx).executeTx node nIndex nHeight nFuelRate vs = .ok e) :
    (CBaseTransaction.reward tx).undoExecuteTx node nIndex nHeight e.views e.undo = .ok vs := by
  obtain ⟨r, a, a', -, ha, hoperate, hview, hlogs, hindex⟩ := CRewardTransaction.executeTx_cases h
  have hscript : e.views.scriptDB = vs.scriptDB ∧ e.undo.vcScriptOperLog = [] := by
    unfold CRewardTransaction.indexReward writeAddressIndex at hindex
    rw [hoff, if_neg Bool.false_ne_true, ite_self] at hindex
    obtain ⟨hs, hl⟩ := Prod.mk.inj (Except.ok.inj hindex)
    exact ⟨hs.symm, hl.symm⟩
  obtain ⟨k, -, hk⟩ := (vs.view.getAccount_eq_some_iff node.cr (.regID r) a).mp ha
  have hid := CRewardTransaction.operateReward_sameIdentity hoperate
  have hak : a.cKeyID = k := hkeyed k a hk
  have hkey : a'.cKeyID = k := hid.cKeyID.trans hak
  have hlive : a'.cKeyID ≠ 0 := by
    rw [hkey, ← hak]
    exact vs.view.live k a hk
  have hlook : (vs.view.setAccountKey k a').accounts.lookup k = some a' := by
    rw [CAccountViewCache.setAccountKey_accounts, Store.lookup_put_self,
      CAccountViewCache.liveAccount_of_ne hlive]
  have hbase : (CBaseTransaction.reward tx).undoExecuteTx node nIndex nHeight e.views e.undo
      = undoExecuteBase node.cr .reward ((CBaseTransaction.reward tx).getHash node.cr.Hash)
        e.views e.undo := rfl
  rw [hbase, undoExecuteBase_eq_ok, hview, hlogs, hscript.1, hscript.2, hkey]
  refine ⟨?_, vs.scriptDB, rfl, rfl⟩
  rw [List.reverse_singleton, List.foldlM_cons, undoAccountLog_of_lookup .reward hlook hid hak,
    if_neg (by simp), vs.view.setAccountKey_restore k a' a hk]
  rfl

/-- Undo data with short lists, which every format carries. -/
def ShortUndo (undo : CBlockUndo) : Prop :=
  undo.length < 253 ∧ ∀ u ∈ undo, u.vcAccountLog.length < 253 ∧
    (∀ log ∈ u.vcAccountLog, 0 ≤ log.nHeight ∧ log.nHeight < 2 ^ 31) ∧
    u.vcScriptOperLog.length < 253 ∧
    ∀ log ∈ u.vcScriptOperLog, log.vchKey.length < 253 ∧ log.vchValue.length < 253

instance shortUndoDecidable (undo : CBlockUndo) : Decidable (ShortUndo undo) := by
  unfold ShortUndo
  infer_instance

theorem ShortUndo.fits {undo : CBlockUndo} (h : ShortUndo undo) : undo.Fits := by
  have hcount : ∀ n : ℕ, n < 253 → (Codec.compactSize maxSize).Fits n := by
    intro n hn
    have hmax : maxSize = 0x02000000 := rfl
    show n ≤ maxSize ∧ n < 256 ^ 8
    omega
  have hbytes : ∀ bytes : Bytes, bytes.length < 253 → vchCodec.Fits bytes := by
    intro bytes hlen
    refine ⟨hcount _ hlen, ?_⟩
    intro x _
    trivial
  refine ⟨hcount _ h.1, ?_⟩
  intro u hu
  obtain ⟨haccounts, hheights, hscripts, hlogs⟩ := h.2 u hu
  refine ⟨⟨hcount _ haccounts, hheights⟩, hcount _ hscripts, ?_⟩
  intro log hlog
  exact ⟨hbytes _ (hlogs log hlog).1, hbytes _ (hlogs log hlog).2⟩

end CBlock

namespace Sample

/-- The first holder, as genesis registers him. -/
def payer : CAccount :=
  { CAccount.null with
    cKeyID := keyId 5
    cRegID := ⟨0, 0⟩
    cPublicKey := pubKey 5
    ullValues := 100000000000 }

/-- The state after genesis. -/
def genesisViews : Views where
  view := viewOf [payer, miner] [(⟨0, 0⟩, keyId 5), (⟨0, 1⟩, keyId 6)] (genesisBlock.getHash crypto.Hash)
  scriptDB := scriptsOf []

def fundNode : Node := chainNode [withEntry fundBlock, withEntry genesisBlock]

/-- A block with one transfer, connected to a state with the given transaction cache. -/
def fundRun (cache : CTransactionDBCache) : Exec CBlock.Connected :=
  fundBlock.connectBlock fundNode genesisViews [entryOf fundBlock, entryOf genesisBlock] cache ∅ false

theorem mem_of_chainNode_read {blocks : List (CBlockIndex × CBlock)} {q : CBlockIndex} {d : CBlock}
    (h : (chainNode blocks).readBlockFromDisk q = some d) : d ∈ blocks.map Prod.snd := by
  have hfind := (Option.filter_eq_some_iff.mp h).1
  exact List.mem_of_find?_eq_some hfind

theorem fundNode_onChain : CBlock.OnChain fundNode (entryOf fundBlock) [entryOf genesisBlock] where
  height := by decide +kernel
  above := by simp
  coinbase q d h := by
    obtain ⟨e, he, rfl⟩ := List.mem_map.mp (mem_of_chainNode_read h)
    rcases List.mem_pair.mp he with rfl | rfl
    · exact ⟨_, _, rfl⟩
    · exact ⟨_, _, rfl⟩

/-- The transfer and the coinbase are undone. -/
theorem fundBlock_undo {cache : CTransactionDBCache} {tx : CBaseTransaction} {i : ℤ} {vs : Views}
    {e : Executed}
    (h : fundBlock.Executes fundNode [entryOf fundBlock, entryOf genesisBlock]
      (entryOf fundBlock).nHeight cache genesisViews tx i vs e) :
    tx.undoExecuteTx fundNode i (entryOf fundBlock).nHeight e.views e.undo = .ok vs := by
  have hkeyed : genesisViews.view.WellKeyed := viewOf_wellKeyed _ _ _
  have hothers : fundBlock.otherTxs = [(fundingTx, 1)] := rfl
  cases h with
  | @other front rest item st e split before run =>
    rw [hothers] at split
    obtain ⟨rfl, hitem⟩ : front = [] ∧ item = (fundingTx, 1) := by
      cases front with
      | nil => exact ⟨rfl, (List.cons.inj split).1.symm⟩
      | cons a front =>
        have hnil := (List.cons.inj split).2
        simp at hnil
    obtain rfl := Except.ok.inj before
    rw [hitem] at run ⊢
    refine (CTransaction.undo_transaction_iff fundNode _ 1 _ _ genesisViews e rfl hkeyed
      scriptsOf_nil_countsCanonical run).mpr ?_
    exact ⟨payer, keyId 7, by decide +kernel, by decide +kernel, by decide +kernel⟩
  | @reward st tx e before first run =>
    refine CBlock.undo_reward_restores rfl ?_ run
    have hrun := (CBlock.connectTxs_ok before).1
    refine Except.foldlM_invariant (fun st => st.views.view.WellKeyed) _ _ ?_ hkeyed hrun
    intro st₁ item st₂ _ hst hstep
    obtain ⟨e₁, llFuel, hexec, -, -, rfl⟩ := CBlock.connectTx_ok hstep
    exact CBaseTransaction.executeTx_wellKeyed hst hexec
  | matured before now high back read first run =>
    exact absurd high (by decide +kernel)

/-- A block with a transfer is connected and disconnected. -/
theorem disconnectBlock_fundBlock : ∃ out, fundRun .empty = .ok out ∧
    fundBlock.disconnectBlock fundNode out.views [out.pBlockIndex, entryOf genesisBlock] out.cTxCache
      out.files = .ok (genesisViews, .empty) := by
  obtain ⟨out, hout⟩ := Except.exists_of_toOption
    (show (fundRun .empty).toOption.isSome = true by decide +kernel)
  have hshort : ((fundRun .empty).toOption.all fun out => decide (CBlock.ShortUndo out.cUndoBlock))
      = true := by decide +kernel
  rw [hout] at hshort
  have hfits := (of_decide_eq_true hshort : CBlock.ShortUndo out.cUndoBlock).fits
  have hready : CBlock.CacheReady fundNode fundBlock (entryOf fundBlock) [entryOf genesisBlock]
      .empty :=
    ⟨by decide, by decide +kernel, by decide +kernel, fun h => absurd h (by decide +kernel)⟩
  exact ⟨out, hout, CBlock.disconnectBlock_connectBlock ⟨rfl, rfl, rfl⟩ fundNode_onChain hready
    (fun _ _ _ _ h => fundBlock_undo h) (by decide +kernel) hout ⟨by decide +kernel, .inl (by decide +kernel)⟩ hfits⟩

/-- A cache that has an entry for the block already. -/
def listedCache : CTransactionDBCache :=
  CTransactionDBCache.empty.putHashes (fundBlock.getHash crypto.Hash) [1]

/-- That entry is gone when the block has been connected and disconnected. -/
theorem listed_block_lost : ¬ ∀ (node : Node) (b : CBlock) (vs : Views) (pIndex : CBlockIndex)
    (pPrev : PBlockIndex) (cache : CTransactionDBCache) (files : UndoFiles) (out : CBlock.Connected),
    CBlock.OnChain node pIndex pPrev →
    (∀ tx i vs' e, b.Executes node (pIndex :: pPrev) pIndex.nHeight cache vs tx i vs' e →
      tx.undoExecuteTx node i pIndex.nHeight e.views e.undo = .ok vs') →
    b.getHash node.cr.Hash ≠ node.cfg.cHashGenesisBlock →
    b.connectBlock node vs (pIndex :: pPrev) cache files false = .ok out →
    CBlock.UndoPlace node pIndex pPrev out.cUndoBlock files → out.cUndoBlock.Fits →
    b.disconnectBlock node out.views (out.pBlockIndex :: pPrev) out.cTxCache out.files
      = .ok (vs, cache) := by
  intro hall
  obtain ⟨out, hout⟩ := Except.exists_of_toOption
    (show (fundRun listedCache).toOption.isSome = true by decide +kernel)
  have hshort : ((fundRun listedCache).toOption.all fun out =>
      decide (CBlock.ShortUndo out.cUndoBlock ∧ out.pBlockIndex.nHeight = 1)) = true := by
    decide +kernel
  rw [hout] at hshort
  have hchecked : CBlock.ShortUndo out.cUndoBlock ∧ out.pBlockIndex.nHeight = 1 :=
    of_decide_eq_true hshort
  have hback := hall fundNode fundBlock genesisViews (entryOf fundBlock) [entryOf genesisBlock]
    listedCache ∅ out fundNode_onChain (fun _ _ _ _ h => fundBlock_undo h) (by decide +kernel) hout
    ⟨by decide +kernel, .inl (by decide +kernel)⟩ hchecked.1.fits
  obtain ⟨c, hdel, hrest⟩ := CBlock.disconnectCache_ok (CBlock.disconnectBlock_ok hback)
  obtain ⟨-, -, hmap⟩ := CTransactionDBCache.deleteBlockFromCache_eq_some_iff.mp hdel
  -- at this height nothing comes back into the cache
  have hlow : listedCache = c := by
    rcases hrest with ⟨-, hc⟩ | ⟨hhigh, -⟩
    · exact hc
    · rw [hchecked.2] at hhigh
      exact absurd hhigh (by decide)
  have hthere : c.mapTxHashByBlockHash.lookup (fundBlock.getHash crypto.Hash) = some [1] := by
    rw [← hlow]
    exact Store.lookup_put_self _ _ _
  have hgone : c.mapTxHashByBlockHash.lookup (fundBlock.getHash crypto.Hash) = none := by
    rw [hmap]
    exact Store.lookup_put_self _ _ _
  rw [hgone] at hthere
  cases hthere

end Sample

end Dacrs
