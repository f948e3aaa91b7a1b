import Dacrs.Conservation
import Dacrs.Lib.Index
import Dacrs.RegisterAccountUndo
import Dacrs.RegisterAppUndo
import Dacrs.TransactionUndo

/-!
# Registration ids and accounts

The account view keeps accounts under key ids and, apart from them, the key id of every registration
id.  `Linked` says that the two agree: a registration id leads to the account that carries it, and an
account that carries one is led to.  `0-0`, the value of an account that has none, is also the id of
genesis's first account.

A transaction that registers nothing keeps every account's id.  A registration keeps the link when its
id and its key are free for each other (`IdFree`, `executeTx_idsIn`).  The undos only keep it under
conditions of their own (`UndoIdFree`, `undoExecuteTx_idsIn`): a registration's undo takes the mapping
away but the id from the account only with the account itself, and the undo of a transfer erases an
account that is left empty even when an id leads to it.
-/

open Codec (Bytes)

namespace Dacrs

namespace CAccountViewCache

/-- The registration ids and the accounts agree. -/
def Linked (v : CAccountViewCache) : Prop :=
  Index.Linked CAccount.cRegID CRegID.null v.accounts v.keyIds

/-- No account's registration id changes, and no new account has one. -/
structure IdsKept (v w : CAccountViewCache) : Prop where
  keyIds : w.keyIds = v.keyIds
  accounts : Index.Kept CAccount.cRegID CRegID.null v.accounts w.accounts

variable {u v w : CAccountViewCache} {k : CKeyID} {a : CAccount}

theorem IdsKept.refl (v : CAccountViewCache) : IdsKept v v := ⟨rfl, .refl _⟩

theorem IdsKept.trans (h : IdsKept u v) (h' : IdsKept v w) : IdsKept u w :=
  ⟨h'.keyIds.trans h.keyIds, h.accounts.trans h'.accounts⟩

theorem IdsKept.linked (h : IdsKept v w) (hv : v.Linked) : w.Linked := by
  unfold Linked
  rw [h.keyIds]
  exact Index.Linked.kept hv h.accounts

theorem IdsKept.setAccountKey (hlive : a.cKeyID ≠ 0)
    (hsame : a.cRegID = ((v.accounts.lookup k).getD (CAccount.fresh k)).cRegID) :
    IdsKept v (v.setAccountKey k a) where
  keyIds := rfl
  accounts := by
    rw [setAccountKey_accounts, liveAccount_of_ne hlive]
    apply Index.Kept.put
    · intro b hb
      rw [hsame, hb]
      rfl
    · intro hnone
      rw [hsame, hnone]
      rfl

/-- A write over a stored account of the same identity. -/
theorem IdsKept.update {b : CAccount} (hb : v.accounts.lookup k = some b)
    (hkey : a.cKeyID = b.cKeyID) (hid : a.cRegID = b.cRegID) : IdsKept v (v.setAccountKey k a) := by
  apply IdsKept.setAccountKey
  · rw [hkey]
    exact v.live k b hb
  · rw [hb]
    exact hid

end CAccountViewCache

/-! ## Executing -/

namespace CTransaction

variable {node : Node} {tx : CTransaction} {nHeight : ℤ}

theorem Transferred.idsKept {view : CAccountViewCache} {a s d' : CAccount} {k : CKeyID}
    (ht : tx.Transferred node nHeight view a s k d') :
    view.IdsKept ((view.setAccountKey a.cKeyID s).setAccountKey k d') := by
  have hs := CAccount.operateAccount_sameIdentity node.cfg ht.minus
  have hd := CAccount.operateAccount_sameIdentity node.cfg ht.add
  have hfirst : view.IdsKept (view.setAccountKey a.cKeyID s) :=
    CAccountViewCache.IdsKept.update ht.stored ht.key hs.cRegID
  apply hfirst.trans
  apply CAccountViewCache.IdsKept.setAccountKey
  · have hlive := (CAccount.operateAccount_cases node.cfg ht.add).2.1
    rw [hd.cKeyID]
    exact hlive
  · exact hd.cRegID

/-- The copies a contract's operations worked on have the ids of their accounts. -/
theorem saveContractAccounts_idsKept {view view' : CAccountViewCache} {w : CVmRunEvn.AccountWork}
    (hv : view.WellKeyed) (hw : w.Over view) {logs logs' : List CAccountLog}
    (h : w.newAccont.foldlM (saveContractAccount w) (view, logs) = .ok (view', logs')) :
    view.IdsKept view' := by
  obtain ⟨haccounts, hkeyIds, -⟩ := saveContractAccounts_accounts hv hw h
  refine ⟨hkeyIds, ?_, ?_⟩
  · intro k a ha
    rw [haccounts, CVmRunEvn.AccountWork.overlay, Store.lookup_union]
    cases hx : w.rawAccont.lookup k with
    | none => exact ⟨a, by rw [Option.none_or, ha], rfl⟩
    | some x =>
      refine ⟨x, rfl, ?_⟩
      have hid := (hw.same k x hx).2
      rw [ha] at hid
      exact hid.cRegID
  · intro k b hb hnone
    rw [haccounts, CVmRunEvn.AccountWork.overlay, Store.lookup_union] at hb
    cases hx : w.rawAccont.lookup k with
    | none =>
      rw [hx, Option.none_or, hnone] at hb
      cases hb
    | some x =>
      rw [hx] at hb
      obtain rfl := Option.some.inj hb
      have hid := (hw.same k x hx).2
      rw [hnone] at hid
      exact hid.cRegID

theorem executeTx_idsKept {nIndex : ℤ} {nFuelRate : Int32} {vs : Views} {out : Executed}
    (hv : vs.view.WellKeyed) (h : tx.executeTx node nIndex nHeight nFuelRate vs = .ok out) :
    vs.view.IdsKept out.views.view := by
  obtain ⟨view, logs, vs', clogs, dblog, alogs, htrans, htype, hview, -⟩ := executeTx_cases h
  obtain ⟨a, s, k, d', ht, rfl, -⟩ := transfer_wellKeyed hv htrans
  rw [hview]
  apply ht.idsKept.trans
  unfold executeByType at htype
  split at htype
  · obtain ⟨des, out', view', rel, -, hrun, hsave, -, rfl, -⟩ := executeContract_cases htype
    obtain ⟨r, s', -, -, -, -, -, hops, -⟩ := CVmRunEvn.run_cases hrun
    have hwell := ht.wellKeyed hv
    exact saveContractAccounts_idsKept hwell (CVmRunEvn.opeatorAccount_over hwell hops) hsave
  · obtain rfl := congrArg Prod.fst (Except.ok.inj htype)
    exact .refl _

end CTransaction

theorem CRewardTransaction.executeTx_idsKept {node : Node} {tx : CRewardTransaction}
    {nIndex nHeight : ℤ} {vs : Views} {out : Executed} (hv : vs.view.WellKeyed)
    (h : tx.executeTx node nIndex nHeight vs = .ok out) : vs.view.IdsKept out.views.view := by
  obtain ⟨r, a, b, -, ha, hb, hview, -⟩ := CRewardTransaction.executeTx_cases h
  have hid := operateReward_sameIdentity hb
  have hstored : vs.view.accounts.lookup a.cKeyID = some a := by
    have hget : vs.view.getAccount node.cr (.regID r) = some a := ha
    exact hv.getAccount node.cr hget
  rw [hview, hid.cKeyID]
  exact CAccountViewCache.IdsKept.update hstored hid.cKeyID hid.cRegID

/-! ## Views whose ids come from somewhere -/

namespace CAccountViewCache

/-- Accounts lie under their own key ids, ids and accounts agree, and every id in use is a known one. -/
structure IdsIn (ids : Set CRegID) (v : CAccountViewCache) : Prop where
  keyed : v.WellKeyed
  linked : v.Linked
  known : ∀ r k, v.keyIds.lookup r = some k → r ∈ ids

variable {ids ids' : Set CRegID} {v w : CAccountViewCache} {r : CRegID} {k : CKeyID} {a : CAccount}

theorem IdsIn.mono (h : v.IdsIn ids) (hsub : ids ⊆ ids') : v.IdsIn ids' :=
  ⟨h.keyed, h.linked, fun r k hr => hsub (h.known r k hr)⟩

theorem IdsIn.kept (h : v.IdsIn ids) (hw : w.WellKeyed) (hkept : IdsKept v w) : w.IdsIn ids where
  keyed := hw
  linked := hkept.linked h.linked
  known := by
    rw [hkept.keyIds]
    exact h.known

/-- Another best block. -/
theorem IdsIn.setBestBlock (h : v.IdsIn ids) (hash : Uint256) : (v.setBestBlock hash).IdsIn ids :=
  ⟨h.keyed, h.linked, h.known⟩

/-- No account that carries an id carries an unknown one. -/
theorem IdsIn.carried (h : v.IdsIn ids) (ha : v.accounts.lookup k = some a)
    (hne : a.cRegID ≠ CRegID.null) : a.cRegID ∈ ids :=
  h.known _ _ (h.linked.owned k a ha hne)

/-- A registration. -/
theorem IdsIn.saveAccountInfo (h : v.IdsIn ids) (hfree : Index.Free v.keyIds r k)
    (hkey : a.cKeyID = k) (hid : a.cRegID = r) :
    (v.saveAccountInfo r k a).IdsIn ({r} ∪ ids) := by
  subst hkey
  have hmap : (v.saveAccountInfo r a.cKeyID a).keyIds = v.keyIds.put r (liveKey a.cKeyID) := rfl
  have hacc : (v.saveAccountInfo r a.cKeyID a).accounts
      = v.accounts.put a.cKeyID (liveAccount a) := rfl
  refine ⟨(h.keyed.setKeyId r a.cKeyID).set rfl, ?_, ?_⟩
  · unfold Linked
    rw [hmap, hacc]
    by_cases h0 : a.cKeyID = 0
    · -- the null key id stores nothing
      have hk : liveKey a.cKeyID = none := if_pos h0
      have ha : liveAccount a = none := if_pos h0
      rw [hk, ha]
      exact Index.Linked.unregister h.linked hfree
    · rw [liveKey_of_ne h0, liveAccount_of_ne h0]
      exact Index.Linked.register h.linked hfree hid
  · intro m j hm
    rw [hmap, Store.lookup_put] at hm
    by_cases hmr : m = r
    · exact .inl hmr
    · rw [if_neg hmr] at hm
      exact .inr (h.known m j hm)

/-- The registrant is written back after the contract's account. -/
theorem IdsIn.setRegistrant {view : CAccountViewCache} {b c : CAccount}
    (h : (view.saveAccountInfo r c.cKeyID c).IdsIn ids) (ha : view.accounts.lookup a.cKeyID = some a)
    (hid : b.SameIdentity a) (hc : c.cRegID = r) (hown : a.cKeyID = c.cKeyID → a.cRegID = r) :
    ((view.saveAccountInfo r c.cKeyID c).setAccountKey b.cKeyID b).IdsIn ids := by
  have hlive : b.cKeyID ≠ 0 := by
    rw [hid.cKeyID]
    exact view.live _ a ha
  apply h.kept (h.keyed.set rfl)
  apply IdsKept.setAccountKey hlive
  rw [hid.cRegID, hid.cKeyID]
  have hacc : (view.saveAccountInfo r c.cKeyID c).accounts
      = view.accounts.put c.cKeyID (liveAccount c) := rfl
  rw [hacc, Store.lookup_put]
  by_cases hk : a.cKeyID = c.cKeyID
  · have hclive : c.cKeyID ≠ 0 := by
      rw [← hk, ← hid.cKeyID]
      exact hlive
    rw [if_pos hk, liveAccount_of_ne hclive, Option.getD_some, hc]
    exact hown hk
  · rw [if_neg hk, ha]
    rfl

/-- A mapping and the account it leads to are taken away together. -/
theorem IdsIn.eraseBoth (h : v.IdsIn ids) (hfree : Index.Free v.keyIds r k) :
    ((v.eraseKeyId r).eraseAccountKey k).IdsIn (ids \ {r}) where
  keyed := CAccountViewCache.WellKeyed.eraseAccountKey h.keyed k
  linked := Index.Linked.unregister h.linked hfree
  known m j hm := by
    have hmap : ((v.eraseKeyId r).eraseAccountKey k).keyIds = v.keyIds.put r none := rfl
    rw [hmap, Store.lookup_put] at hm
    by_cases hmr : m = r
    · rw [if_pos hmr] at hm
      cases hm
    · rw [if_neg hmr] at hm
      exact ⟨h.known m j hm, hmr⟩

end CAccountViewCache

/-! ## Executing any transaction -/

namespace CBaseTransaction

variable {node : Node} {tx : CBaseTransaction} {nIndex nHeight : ℤ} {ids : Set CRegID}

/-- The ids a transaction registers. -/
def registers (tx : CBaseTransaction) (nIndex nHeight : ℤ) : Set CRegID :=
  match tx with
  | registerAccount _ => {CRegID.ofPosition nHeight nIndex}
  | registerApp _ => {CRegID.ofPosition nHeight nIndex}
  | _ => ∅

/-- The id about to be registered leads nowhere else, and no other id leads to its key id.  A
registrant that is the contract's own account must carry the contract's id. -/
def IdFree (node : Node) (tx : CBaseTransaction) (nIndex nHeight : ℤ) (view : CAccountViewCache) :
    Prop :=
  let r := CRegID.ofPosition nHeight nIndex
  match tx with
  | registerAccount tx => ∀ pk, tx.cUserId = .pubKey pk →
      Index.Free view.keyIds r (pk.getKeyID node.cr)
  | registerApp tx => Index.Free view.keyIds r (CRegisterAppTx.contractKeyId node.cr r) ∧
      ∀ a, view.getAccount node.cr tx.cRegAcctId = some a →
        a.cKeyID = CRegisterAppTx.contractKeyId node.cr r → a.cRegID = r
  | _ => True

theorem executeTx_idsIn {nFuelRate : Int32} {vs : Views} {out : Executed}
    (h : vs.view.IdsIn ids) (hfree : tx.IdFree node nIndex nHeight vs.view)
    (hexec : tx.executeTx node nIndex nHeight nFuelRate vs = .ok out) :
    out.views.view.IdsIn (tx.registers nIndex nHeight ∪ ids) := by
  have hkeyed := executeTx_wellKeyed h.keyed hexec
  cases tx with
  | reward tx =>
    apply (h.kept hkeyed (CRewardTransaction.executeTx_idsKept h.keyed hexec)).mono
    exact Set.subset_union_right
  | transaction tx =>
    apply (h.kept hkeyed (CTransaction.executeTx_idsKept h.keyed hexec)).mono
    exact Set.subset_union_right
  | registerAccount tx =>
    obtain ⟨pk, a, b, hpk, ha, hb, hview, -⟩ := CRegisterAccountTx.executeTx_cases hexec
    obtain ⟨hkey, -, m, hold⟩ := CRegisterAccountTx.registerAccount_cases hb
    rw [hview]
    have hbkey : b.cKeyID = pk.getKeyID node.cr := hkey.trans (h.keyed _ a ha)
    have hbid : b.cRegID = .ofPosition nHeight nIndex := by
      have hreg := congrArg CAccount.cRegID hold
      split at hreg
      · exact hreg
      · exact hreg
    exact h.saveAccountInfo (hfree pk hpk) hbkey hbid
  | registerApp tx =>
    obtain ⟨a, b, logs, s, ha, hpay, -, -, hview, -⟩ := CRegisterAppTx.executeTx_cases hexec
    obtain ⟨hid, -, -⟩ := CRegisterAppTx.payFee_cases hpay
    obtain ⟨hfree, hown⟩ := hfree
    rw [hview]
    have hsaved := h.saveAccountInfo
      (a := CRegisterAppTx.contractAccount node.cr (.ofPosition nHeight nIndex)) hfree rfl rfl
    exact hsaved.setRegistrant (h.keyed.getAccount node.cr ha) hid rfl (hown a ha)

end CBaseTransaction

/-! ## Undoing -/

/-- The accounts that putting the logs back leaves empty and without a key of their own: no id leads to
them. -/
def LedNowhere (cr : Crypto) (view : CAccountViewCache) (logs : List CAccountLog) : Prop :=
  ∀ log ∈ logs, ∀ a, view.accounts.lookup log.cKeyID = some a →
    ¬ (a.undoOperateAccount log).Kept cr → ∀ r, view.keyIds.lookup r ≠ some log.cKeyID

theorem CAccount.undoOperateAccount_sameIdentity (a : CAccount) (log : CAccountLog) :
    (a.undoOperateAccount log).SameIdentity a := ⟨rfl, rfl, rfl, rfl⟩

section
variable {cr : Crypto} {type : EmTxType} {v w : CAccountViewCache} {log : CAccountLog}
  {logs : List CAccountLog} {ids : Set CRegID}

/-- One account log, put back. -/
theorem undoAccountLog_cases (h : undoAccountLog cr type v log = .ok w) :
    ∃ a, v.accounts.lookup log.cKeyID = some a ∧
      ((w = v.setAccountKey log.cKeyID (a.undoOperateAccount log)) ∨
        type = .common ∧ ¬ (a.undoOperateAccount log).Kept cr ∧ w = v.eraseAccountKey log.cKeyID) := by
  unfold undoAccountLog at h
  split at h
  · cases h
  · next a ha =>
    dsimp only at h
    split at h
    · next herase =>
      have hkept := (CAccount.not_kept_iff cr _).mp herase.2
      exact ⟨a, ha, .inr ⟨herase.1, hkept, (Except.ok.inj h).symm⟩⟩
    · exact ⟨a, ha, .inl (Except.ok.inj h).symm⟩

theorem undoAccountLog_idsIn (h : v.IdsIn ids) (hled : type = .common → LedNowhere cr v (log :: logs))
    (hundo : undoAccountLog cr type v log = .ok w) :
    w.IdsIn ids ∧ (type = .common → LedNowhere cr w logs) := by
  obtain ⟨a, ha, hw⟩ := undoAccountLog_cases hundo
  have hkey : a.cKeyID = log.cKeyID := h.keyed _ a ha
  have hlive : (a.undoOperateAccount log).cKeyID ≠ 0 := v.live _ a ha
  rcases hw with rfl | ⟨htype, hkept, rfl⟩
  · refine ⟨h.kept (h.keyed.set hkey) (.update ha rfl rfl), ?_⟩
    intro htype log' hlog' b hb hnot
    rw [CAccountViewCache.setAccountKey_accounts, CAccountViewCache.liveAccount_of_ne hlive,
      Store.lookup_put] at hb
    by_cases hsame : log'.cKeyID = log.cKeyID
    · -- a later log of the same account overwrites what this one put back
      rw [if_pos hsame] at hb
      obtain rfl := Option.some.inj hb
      rw [← hsame] at ha
      exact hled htype log' (List.mem_cons_of_mem _ hlog') a ha hnot
    · rw [if_neg hsame] at hb
      exact hled htype log' (List.mem_cons_of_mem _ hlog') b hb hnot
  · have hno := hled htype log List.mem_cons_self a ha hkept
    refine ⟨⟨h.keyed.eraseAccountKey _, Index.Linked.erase h.linked hno, h.known⟩, ?_⟩
    intro htype log' hlog' b hb hnot
    rw [CAccountViewCache.eraseAccountKey_accounts, Store.lookup_put] at hb
    by_cases hsame : log'.cKeyID = log.cKeyID
    · rw [if_pos hsame] at hb
      cases hb
    · rw [if_neg hsame] at hb
      exact hled htype log' (List.mem_cons_of_mem _ hlog') b hb hnot

theorem undoAccountLogs_idsIn (h : v.IdsIn ids) (hled : type = .common → LedNowhere cr v logs)
    (hundo : logs.foldlM (undoAccountLog cr type) v = .ok w) : w.IdsIn ids := by
  induction logs generalizing v with
  | nil =>
    obtain rfl := Except.ok.inj hundo
    exact h
  | cons log logs ih =>
    rw [List.foldlM_cons, Except.bind_eq_ok] at hundo
    obtain ⟨v', h1, h2⟩ := hundo
    obtain ⟨hv', hled'⟩ := undoAccountLog_idsIn h hled h1
    exact ih hv' hled' h2

end

/-- A transaction's undo needs more than its execution: a registered account must come back without a
balance, or it stays with its id; a six-byte script field keeps a contract registered; and an account
that an id leads to must not be taken for one the transfer created. -/
def CBaseTransaction.UndoIdFree (node : Node) (tx : CBaseTransaction) (nIndex nHeight : ℤ)
    (view : CAccountViewCache) (undo : CTxUndo) : Prop :=
  let r := CRegID.ofPosition nHeight nIndex
  match tx with
  | registerAccount tx =>
    (∃ pk, tx.cUserId = .pubKey pk ∧ Index.Free view.keyIds r (pk.getKeyID node.cr)) ∧
      ∀ k a old, view.keyIds.lookup r = some k → view.accounts.lookup k = some a →
        tx.undoFee k undo a = .ok old → old.isEmptyValue = true
  | registerApp tx => tx.vchScript.length ≠ 6 ∧
      Index.Free view.keyIds r (CRegisterAppTx.contractKeyId node.cr r) ∧
      ∀ a, view.getAccount node.cr tx.cRegAcctId = some a →
        a.cKeyID = CRegisterAppTx.contractKeyId node.cr r → a.cRegID = CRegID.null
  | transaction tx => tx.chTxType = .common → LedNowhere node.cr view undo.vcAccountLog
  | reward _ => True

section
variable {node : Node} {nIndex nHeight : ℤ} {vs ws : Views} {undo : CTxUndo} {ids : Set CRegID}

theorem undoExecuteBase_idsIn {type : EmTxType} {hash : Uint256} (h : vs.view.IdsIn ids)
    (hled : type = .common → LedNowhere node.cr vs.view undo.vcAccountLog)
    (hundo : undoExecuteBase node.cr type hash vs undo = .ok ws) : ws.view.IdsIn ids := by
  obtain ⟨hview, -⟩ := undoExecuteBase_eq_ok.mp hundo
  apply undoAccountLogs_idsIn h ?_ hview
  intro htype log hlog
  exact hled htype log (List.mem_reverse.mp hlog)

theorem CRegisterAccountTx.undoExecuteTx_idsIn {tx : CRegisterAccountTx} (h : vs.view.IdsIn ids)
    (hfree : (CBaseTransaction.registerAccount tx).UndoIdFree node nIndex nHeight vs.view undo)
    (hundo : tx.undoExecuteTx node nIndex nHeight vs undo = .ok ws) :
    ws.view.IdsIn (ids \ {CRegID.ofPosition nHeight nIndex}) := by
  obtain ⟨⟨pk, hpk, hfree⟩, hempty⟩ := hfree
  cases hmap : vs.view.keyIds.lookup (.ofPosition nHeight nIndex) with
  | none =>
    -- the registered account is not found
    have hreg : vs.view.getAccountReg (.ofPosition nHeight nIndex) = none := by
      simp only [CAccountViewCache.getAccountReg, hmap]
    unfold undoExecuteTx at hundo
    dsimp only at hundo
    rw [hreg] at hundo
    cases hundo
  | some k =>
    obtain ⟨a, ha, -⟩ := h.linked.leads _ k hmap
    rw [undoExecuteTx_of_lookup hmap ha, Except.bind_eq_ok] at hundo
    obtain ⟨old, hold, hundo⟩ := hundo
    obtain rfl := Except.ok.inj hundo
    have hview : ((vs.view.eraseAccount node.cr tx.cUserId).getD vs.view).eraseKeyId
        (.ofPosition nHeight nIndex)
        = (vs.view.eraseKeyId (.ofPosition nHeight nIndex)).eraseAccountKey
          (pk.getKeyID node.cr) := by
      rw [hpk]
      rfl
    show CAccountViewCache.IdsIn _ (CAccountViewCache.eraseKeyId (if _ then _ else _) _)
    rw [if_neg (not_not_intro (hempty k a old hmap ha hold)), hview]
    exact h.eraseBoth hfree

theorem CRegisterAppTx.undoFee_sameIdentity (a : CAccount) : (undoFee undo a).SameIdentity a := by
  unfold undoFee
  induction undo.vcAccountLog.filter (·.cKeyID == a.cKeyID) using List.reverseRecOn with
  | nil => exact .refl a
  | append_singleton logs log ih =>
    rw [List.foldl_append]
    exact (CAccount.undoOperateAccount_sameIdentity _ log).trans ih

theorem CRegisterAppTx.undoExecuteTx_idsIn {tx : CRegisterAppTx} (h : vs.view.IdsIn ids)
    (hfree : (CBaseTransaction.registerApp tx).UndoIdFree node nIndex nHeight vs.view undo)
    (hundo : tx.undoExecuteTx node nIndex nHeight vs undo = .ok ws) :
    ws.view.IdsIn (ids \ {CRegID.ofPosition nHeight nIndex}) := by
  obtain ⟨h6, hfree, hown⟩ := hfree
  unfold undoExecuteTx at hundo
  rw [Except.bind_eq_ok] at hundo
  obtain ⟨a, ha, hundo⟩ := hundo
  rw [Exec.ofOption_eq_ok (fails_updateFail _)] at ha
  rw [Except.bind_eq_ok] at hundo
  obtain ⟨es, hes, hundo⟩ := hundo
  dsimp only at hundo
  rw [Except.bind_eq_ok] at hundo
  obtain ⟨s, -, hundo⟩ := hundo
  obtain rfl := Except.ok.inj hundo
  obtain ⟨-, hesv⟩ := (eraseContract_eq_ok h6).mp hes
  show (es.view.setAccountKey (undoFee undo a).cKeyID (undoFee undo a)).IdsIn _
  rw [hesv]
  have hid : (undoFee undo a).SameIdentity a := undoFee_sameIdentity a
  have herased := h.eraseBoth hfree
  have hstored := h.keyed.getAccount node.cr ha
  apply herased.kept (herased.keyed.set rfl)
  apply CAccountViewCache.IdsKept.setAccountKey
  · rw [hid.cKeyID]
    exact vs.view.live _ a hstored
  · rw [hid.cRegID, hid.cKeyID, CAccountViewCache.eraseAccountKey_accounts,
      CAccountViewCache.eraseKeyId_accounts, Store.lookup_put]
    by_cases hk : a.cKeyID = contractKeyId node.cr (.ofPosition nHeight nIndex)
    · rw [if_pos hk]
      exact hown a ha hk
    · rw [if_neg hk, hstored]
      rfl

/-- Undoing a transaction takes the ids it registered away. -/
theorem CBaseTransaction.undoExecuteTx_idsIn {tx : CBaseTransaction} (h : vs.view.IdsIn ids)
    (hfree : tx.UndoIdFree node nIndex nHeight vs.view undo)
    (hundo : tx.undoExecuteTx node nIndex nHeight vs undo = .ok ws) :
    ws.view.IdsIn (ids \ tx.registers nIndex nHeight) := by
  cases tx with
  | reward tx =>
    have hids : ids \ (CBaseTransaction.reward tx).registers nIndex nHeight = ids := Set.sdiff_empty
    rw [hids]
    apply undoExecuteBase_idsIn h ?_ hundo
    intro htype
    cases htype
  | transaction tx =>
    have hids : ids \ (CBaseTransaction.transaction tx).registers nIndex nHeight = ids :=
      Set.sdiff_empty
    rw [hids]
    apply undoExecuteBase_idsIn h ?_ hundo
    intro htype
    apply hfree
    have hct : tx.chTxType.toTxType = .common := htype
    cases htx : tx.chTxType with
    | common => rfl
    | contract =>
      rw [htx] at hct
      cases hct
  | registerAccount tx => exact CRegisterAccountTx.undoExecuteTx_idsIn h hfree hundo
  | registerApp tx => exact CRegisterAppTx.undoExecuteTx_idsIn h hfree hundo

end

end Dacrs
