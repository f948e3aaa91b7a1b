import Dacrs.ContractData
import Dacrs.Sample

/-!
# Undoing a common transaction or a contract call

The generic `CBaseTransaction::UndoExecuteTx` against `CTransaction::ExecuteTx`, the address
index being off.  The undo of a transfer erases every account it leaves empty and unregistered,
whether the transfer created it or not; the undo of a contract call erases none, so an account
the contract created stays.  `undo_transaction_iff` is the exact condition under which the views
are restored.
-/

open Codec (Bytes)

namespace Dacrs

/-- What the undo of a transfer does not erase. -/
def CAccount.Kept (cr : Crypto) (a : CAccount) : Prop :=
  a.isRegister cr = true ∨ a.ullValues ≠ 0

instance (cr : Crypto) (a : CAccount) : Decidable (a.Kept cr) := by
  unfold CAccount.Kept
  infer_instance

theorem CAccount.not_kept_iff (cr : Crypto) (a : CAccount) :
    (a.isEmptyValue = true ∧ (¬ a.cPublicKey.isFullyValid cr = true ∨
      a.cPublicKey.getKeyID cr ≠ a.cKeyID)) ↔ ¬ a.Kept cr := by
  rw [isEmptyValue_iff, Kept, isRegister, Bool.and_eq_true, beq_iff_eq]
  tauto

/-- A fresh account is empty and has no key. -/
theorem CAccount.fresh_not_kept (cr : Crypto) (k : CKeyID) : ¬ (CAccount.fresh k).Kept cr := by
  simp [Kept, fresh, null, isRegister, CPubKey.isFullyValid, CPubKey.isValid, CPubKey.invalid,
    CPubKey.size]

/-! ## One account log -/

section
variable {cr : Crypto} {v v' : CAccountViewCache} {a x : CAccount} {k : CKeyID}

/-- Undoing a log of the account stored under its key id. -/
theorem undoAccountLog_of_lookup (type : EmTxType) (hx : v.accounts.lookup k = some x)
    (hid : x.SameIdentity a) (hk : a.cKeyID = k) :
    undoAccountLog cr type v (.ofAccount a)
      = .ok (if type = .common ∧ ¬ a.Kept cr then v.eraseAccountKey k else v.setAccountKey k a) := by
  have hkey : (CAccountLog.ofAccount a).cKeyID = k := hk
  unfold undoAccountLog
  rw [hkey, hx]
  dsimp only
  rw [hid.undo_log]
  simp only [CAccount.not_kept_iff]
  split <;> rfl

/-- A contract's undo erases no account. -/
theorem undoAccountLog_contract_keeps {log : CAccountLog}
    (h : undoAccountLog cr .contract v log = .ok v') (hk : (v.accounts.lookup k).isSome = true) :
    (v'.accounts.lookup k).isSome = true := by
  unfold undoAccountLog at h
  split at h
  · cases h
  · next b hb =>
    have hlive : (b.undoOperateAccount log).cKeyID ≠ 0 := v.live _ b hb
    dsimp only at h
    rw [if_neg (by simp)] at h
    obtain rfl := Except.ok.inj h
    rw [CAccountViewCache.setAccountKey_accounts, CAccountViewCache.liveAccount_of_ne hlive,
      Store.lookup_put]
    split
    · rfl
    · exact hk

/-- A write over a stored account is undone by a log of it, by a contract's undo. -/
theorem undoAccountLog_contract_restores (cr : Crypto) (ha : v.accounts.lookup k = some a) (hka : a.cKeyID = k)
    (hid : x.SameIdentity a) :
    undoAccountLog cr .contract (v.setAccountKey k x) (.ofAccount a) = .ok v := by
  have hlive : x.cKeyID ≠ 0 := by
    rw [hid.cKeyID]
    exact v.live k a ha
  have hx : (v.setAccountKey k x).accounts.lookup k = some x := by
    rw [CAccountViewCache.setAccountKey_accounts, Store.lookup_put_self,
      CAccountViewCache.liveAccount_of_ne hlive]
  rw [undoAccountLog_of_lookup .contract hx hid hka, if_neg (by simp),
    v.setAccountKey_restore k x a ha]

end

/-! ## The two halves of the undo -/

/-- The generic undo: all account logs, then all script logs. -/
theorem undoExecuteBase_eq_ok {cr : Crypto} {type : EmTxType} {hash : Uint256} {vs ws : Views}
    {undo : CTxUndo} :
    undoExecuteBase cr type hash vs undo = .ok ws ↔
      undo.vcAccountLog.reverse.foldlM (undoAccountLog cr type) vs.view = .ok ws.view ∧
      ∃ s, undo.vcScriptOperLog.reverse.foldlM (undoScriptLog "bad-save-scriptdb") vs.scriptDB
          = .ok s ∧
        ws.scriptDB = if type = .contract then s.eraseTxRelAccout hash else s := by
  unfold undoExecuteBase
  constructor
  · intro h
    rw [Except.bind_eq_ok] at h
    obtain ⟨view, hview, h⟩ := h
    rw [Except.bind_eq_ok] at h
    obtain ⟨s, hs, h⟩ := h
    obtain rfl := Except.ok.inj h
    exact ⟨hview, s, hs, rfl⟩
  · rintro ⟨hview, s, hs, hws⟩
    rw [hview, Except.ok_bind, hs, Except.ok_bind, ← hws]
    rfl

/-- Logged writes are undone, also when the related accounts of a transaction have been
recorded in between. -/
theorem undo_logged {s t : CScriptDBViewCache} {logs : List CScriptDBOperLog}
    (h : CScriptDBViewCache.Logged s logs t) (reason : String) (hash : Uint256) (rel : Bytes) :
    logs.reverse.foldlM (undoScriptLog reason) (t.setTxRelAccout hash rel)
      = .ok (s.setTxRelAccout hash rel) := by
  refine ((h.trail.map (fun t => t.setTxRelAccout hash rel) ?_).congr ?_).undoAll
  · intro log hmem t s hundo
    exact CScriptDBViewCache.undoScriptData_setData rel rfl (h.keys log hmem) hundo
  · intro t log s hundo
    exact Exec.onFalse_eq_ok.mpr hundo

namespace CTransaction

variable {node : Node} {tx : CTransaction} {nIndex nHeight : ℤ} {nFuelRate : Int32} {vs : Views}

/-! ## The undo of a transfer -/

section
variable {view : CAccountViewCache} {a s d' : CAccount} {k : CKeyID}

/-- What the transfer's undo finds under the destination. -/
theorem Transferred.undo_des (ht : tx.Transferred node nHeight view a s k d')
    (hv : view.WellKeyed) :
    undoAccountLog node.cr .common ((view.setAccountKey a.cKeyID s).setAccountKey k d')
        (.ofAccount (((view.setAccountKey a.cKeyID s).accounts.lookup k).getD (CAccount.fresh k)))
      = .ok (match (view.setAccountKey a.cKeyID s).accounts.lookup k with
        | some d => if d.Kept node.cr then view.setAccountKey a.cKeyID s
          else (view.setAccountKey a.cKeyID s).eraseAccountKey k
        | none => view.setAccountKey a.cKeyID s) := by
  have hv₁ : (view.setAccountKey a.cKeyID s).WellKeyed := by
    rw [← ht.key]
    exact hv.setAccountKey s
  set v₁ := view.setAccountKey a.cKeyID s with hv₁def
  have hid := CAccount.operateAccount_sameIdentity node.cfg ht.add
  have hdk : ((v₁.accounts.lookup k).getD (CAccount.fresh k)).cKeyID = k := by
    rw [← hid.cKeyID]
    exact ht.desKey
  have hlive : d'.cKeyID ≠ 0 := by
    rw [hid.cKeyID]
    exact CAccount.operateAccount_key_ne node.cfg ht.add
  have hx : (v₁.setAccountKey k d').accounts.lookup k = some d' := by
    rw [CAccountViewCache.setAccountKey_accounts, Store.lookup_put_self,
      CAccountViewCache.liveAccount_of_ne hlive]
  rw [undoAccountLog_of_lookup .common hx hid hdk]
  cases hlook : v₁.accounts.lookup k with
  | none =>
    have hnot := CAccount.fresh_not_kept node.cr k
    rw [Option.getD_none, if_pos ⟨rfl, hnot⟩, v₁.setAccountKey_erase k d' hlook]
  | some d =>
    rw [Option.getD_some]
    by_cases hkept : d.Kept node.cr
    · rw [if_neg (by simp [hkept])]
      simp only [if_pos hkept, v₁.setAccountKey_restore k d' d hlook]
    · rw [if_pos ⟨rfl, hkept⟩]
      simp only [if_neg hkept]
      refine congrArg Except.ok (CAccountViewCache.ext_maps ?_ rfl rfl)
      rw [CAccountViewCache.eraseAccountKey_accounts, CAccountViewCache.setAccountKey_accounts,
        Store.put_put]
      rfl

/-- The undo of a transfer restores the view exactly when neither account is taken for one the
transfer created. -/
theorem Transferred.undo_iff (ht : tx.Transferred node nHeight view a s k d')
    (hv : view.WellKeyed) :
    [CAccountLog.ofAccount a, .ofAccount (((view.setAccountKey a.cKeyID s).accounts.lookup k).getD
        (CAccount.fresh k))].reverse.foldlM (undoAccountLog node.cr .common)
        ((view.setAccountKey a.cKeyID s).setAccountKey k d') = .ok view ↔
      a.Kept node.cr ∧
        ∀ d, (view.setAccountKey a.cKeyID s).accounts.lookup k = some d → d.Kept node.cr := by
  have hids := CAccount.operateAccount_sameIdentity node.cfg ht.minus
  have hlive : s.cKeyID ≠ 0 := by
    rw [ht.key]
    exact view.live _ a ht.stored
  have hs : (view.setAccountKey a.cKeyID s).accounts.lookup a.cKeyID = some s := by
    rw [CAccountViewCache.setAccountKey_accounts, Store.lookup_put_self,
      CAccountViewCache.liveAccount_of_ne hlive]
  rw [List.reverse_cons, List.reverse_singleton, List.singleton_append, List.foldlM_cons,
    ht.undo_des hv, Except.ok_bind, List.foldlM_cons]
  set v₁ := view.setAccountKey a.cKeyID s with hv₁def
  -- the source once the destination is back
  have hsrc : undoAccountLog node.cr .common v₁ (.ofAccount a)
      = .ok (if a.Kept node.cr then view else view.eraseAccountKey a.cKeyID) := by
    rw [undoAccountLog_of_lookup .common hs hids rfl]
    by_cases hkept : a.Kept node.cr
    · rw [if_neg (by simp [hkept]), if_pos hkept, view.setAccountKey_restore _ s a ht.stored]
    · rw [if_pos ⟨rfl, hkept⟩, if_neg hkept]
      refine congrArg Except.ok (CAccountViewCache.ext_maps ?_ rfl rfl)
      rw [CAccountViewCache.eraseAccountKey_accounts, hv₁def,
        CAccountViewCache.setAccountKey_accounts, Store.put_put]
      rfl
  have hgone : (if a.Kept node.cr then view else view.eraseAccountKey a.cKeyID) = view ↔
      a.Kept node.cr := by
    by_cases hkept : a.Kept node.cr
    · simp [hkept]
    · rw [if_neg hkept]
      refine iff_of_false (fun heq => ?_) hkept
      have hlook := congrArg (fun v => v.accounts.lookup a.cKeyID) heq
      simp [ht.stored] at hlook
  have hone : ∀ w : CAccountViewCache,
      (undoAccountLog node.cr .common w (.ofAccount a) >>=
        fun v => ([] : List CAccountLog).foldlM (undoAccountLog node.cr .common) v)
        = undoAccountLog node.cr .common w (.ofAccount a) := by
    intro w
    cases undoAccountLog node.cr .common w (.ofAccount a) <;> rfl
  rw [hone]
  cases hlook : v₁.accounts.lookup k with
  | none =>
    dsimp only
    rw [hsrc, Except.ok.injEq, hgone]
    simp
  | some d =>
    by_cases hkept : d.Kept node.cr
    · simp only [if_pos hkept]
      rw [hsrc, Except.ok.injEq, hgone]
      simp [hkept]
    · simp only [if_neg hkept]
      refine iff_of_false (fun heq => ?_) (fun hall => hkept (hall.2 d rfl))
      -- the destination was erased and is not written again
      by_cases hk : k = a.cKeyID
      · unfold undoAccountLog at heq
        have hnone : (v₁.eraseAccountKey k).accounts.lookup (CAccountLog.ofAccount a).cKeyID
            = none := by
          rw [CAccountViewCache.eraseAccountKey_accounts, hk]
          exact Store.lookup_put_self _ _ _
        rw [hnone] at heq
        cases heq
      · have hs' : (v₁.eraseAccountKey k).accounts.lookup a.cKeyID = some s := by
          rw [CAccountViewCache.eraseAccountKey_accounts, Store.lookup_put_ne _ _ (Ne.symm hk), hs]
        rw [undoAccountLog_of_lookup .common hs' hids rfl, Except.ok.injEq] at heq
        have hd : view.accounts.lookup k = some d := by
          rw [hv₁def, CAccountViewCache.setAccountKey_accounts, Store.lookup_put_ne _ _ hk] at hlook
          exact hlook
        rw [← heq] at hd
        split at hd
        · simp [Store.lookup_put_ne _ _ hk] at hd
        · simp [Store.lookup_put_ne _ _ hk] at hd

end

/-! ## The undo of a contract call -/

/-- The accounts of a contract's run, its view being that after the transfer. -/
def contractOutcome (node : Node) (tx : CTransaction) (nHeight : ℤ) (nFuelRate : Int32)
    (vs : Views) : Exec CVmRunEvn.Outcome := do
  let (view, _) ← tx.transfer node nHeight vs.view
  Exec.withRegID tx.cDesUserId fun des =>
    CVmRunEvn.run node tx des view vs.scriptDB nHeight (int32ToUInt64 (getFuelRate node vs.scriptDB
      ((CBaseTransaction.transaction tx).getHash node.cr.Hash) nFuelRate))

section
variable {w : CVmRunEvn.AccountWork} {v v' : CAccountViewCache}

/-- Saving copies of stored accounts leaves logs that undo it. -/
theorem saveContractAccounts_trail (cr : Crypto) {keys : List CKeyID} {logs logs' : List CAccountLog}
    (hstored : ∀ k ∈ keys, ∃ x y, v.accounts.lookup k = some y ∧ y.cKeyID = k ∧
      w.rawAccont.lookup k = some x ∧ x.SameIdentity y)
    (h : keys.foldlM (saveContractAccount w) (v, logs) = .ok (v', logs')) :
    ∃ new, logs' = logs ++ new ∧ Undo.Trail (undoAccountLog cr .contract) v new v' := by
  induction keys generalizing v logs with
  | nil =>
    obtain ⟨rfl, rfl⟩ := Prod.mk.inj (Except.ok.inj h)
    exact ⟨[], by simp, .nil⟩
  | cons k keys ih =>
    rw [List.foldlM_cons, Except.bind_eq_ok] at h
    obtain ⟨⟨v₁, logs₁⟩, h1, h2⟩ := h
    obtain ⟨rfl, rfl⟩ := saveContractAccount_cases h1
    obtain ⟨x, y, hy, hyk, hx, hid⟩ := hstored k List.mem_cons_self
    have hxk : x.cKeyID = k := hid.cKeyID.trans hyk
    rw [hx, hy, Option.getD_some, Option.getD_some] at h2
    have hlive : x.cKeyID ≠ 0 := by
      rw [hid.cKeyID]
      exact v.live k y hy
    -- the copy just saved may be saved again
    have hnext : ∀ j ∈ keys, ∃ x' y', (v.setAccountKey k x).accounts.lookup j = some y' ∧
        y'.cKeyID = j ∧ w.rawAccont.lookup j = some x' ∧ x'.SameIdentity y' := by
      intro j hj
      rw [CAccountViewCache.setAccountKey_accounts, CAccountViewCache.liveAccount_of_ne hlive,
        Store.lookup_put]
      split
      · next hjk =>
        subst hjk
        exact ⟨x, x, rfl, hxk, hx, .refl x⟩
      · exact hstored j (List.mem_cons_of_mem k hj)
    obtain ⟨new, rfl, htrail⟩ := ih hnext h2
    refine ⟨.ofAccount y :: new, by simp, ?_⟩
    have hone := undoAccountLog_contract_restores cr hy hyk hid
    exact (Undo.Trail.single hone).append htrail

/-- The undo of a contract call erases nothing. -/
theorem undoAccountLogs_contract_keeps {cr : Crypto} {logs : List CAccountLog} {k : CKeyID}
    (h : logs.foldlM (undoAccountLog cr .contract) v = .ok v')
    (hk : (v.accounts.lookup k).isSome = true) : (v'.accounts.lookup k).isSome = true :=
  Except.foldlM_invariant (fun v => (v.accounts.lookup k).isSome = true)
    (undoAccountLog cr .contract) logs (fun _ _ _ _ hv hs => undoAccountLog_contract_keeps hs hv) hk h

end

/-! ## When the undo restores -/

/-- The state before a transaction that its undo restores.  Transfer: the source, and the
destination if it exists, are kept; an account that pays itself is kept after the payment.
Contract call: every account the contract touches exists, and no related accounts are on record
for the transaction. -/
def UndoRestores (node : Node) (tx : CTransaction) (nHeight : ℤ) (nFuelRate : Int32)
    (vs : Views) : Prop :=
  match tx.chTxType with
  | .common => ∃ a k, vs.view.getAccount node.cr tx.cSrcRegId = some a ∧
      vs.view.getKeyId node.cr tx.cDesUserId = some k ∧
      if k = a.cKeyID then a.isRegister node.cr = true ∨ a.ullValues ≠ tx.ullFees + tx.ullValues
      else a.Kept node.cr ∧ ∀ d, vs.view.accounts.lookup k = some d → d.Kept node.cr
  | .contract =>
      (∀ out, tx.contractOutcome node nHeight nFuelRate vs = .ok out →
        ∀ k ∈ out.accounts.newAccont, (vs.view.accounts.lookup k).isSome = true) ∧
      vs.scriptDB.getData (CScriptDBViewCache.txRelAccountKey
        ((CBaseTransaction.transaction tx).getHash node.cr.Hash)) = none

section
variable {view : CAccountViewCache} {a s d' : CAccount} {k : CKeyID}

/-- The condition of a transfer, told by the state before it. -/
theorem Transferred.kept_iff (ht : tx.Transferred node nHeight view a s k d') :
    (a.Kept node.cr ∧
        ∀ d, (view.setAccountKey a.cKeyID s).accounts.lookup k = some d → d.Kept node.cr) ↔
      if k = a.cKeyID then a.isRegister node.cr = true ∨ a.ullValues ≠ tx.ullFees + tx.ullValues
      else a.Kept node.cr ∧ ∀ d, view.accounts.lookup k = some d → d.Kept node.cr := by
  have hid := CAccount.operateAccount_sameIdentity node.cfg ht.minus
  have hsub := CAccount.operateAccount_minus node.cfg ht.minus
  have hlive : s.cKeyID ≠ 0 := by
    rw [ht.key]
    exact view.live _ a ht.stored
  rw [CAccountViewCache.setAccountKey_accounts, CAccountViewCache.liveAccount_of_ne hlive,
    Store.lookup_put]
  by_cases hk : k = a.cKeyID
  · rw [if_pos hk, if_pos hk]
    have hreg : s.isRegister node.cr = a.isRegister node.cr := by
      rw [CAccount.isRegister, CAccount.isRegister, hid.cPublicKey, hid.cKeyID]
    have hempty : s.ullValues = 0 ↔ a.ullValues = tx.ullFees + tx.ullValues := by
      constructor
      · intro h0
        rw [h0] at hsub
        refine UInt64.toNat_inj.mp ?_
        rw [← hsub]
        simp
      · intro heq
        refine UInt64.toNat_inj.mp ?_
        rw [heq] at hsub
        simpa using hsub
    simp only [Option.some.injEq, forall_eq', CAccount.Kept, hreg, ne_eq, hempty]
    constructor
    · exact fun h => h.2
    · intro h
      refine ⟨h.imp_right fun hne h0 => hne ?_, h⟩
      -- an empty account pays nothing
      rw [h0] at hsub ⊢
      refine UInt64.toNat_inj.mp ?_
      have hz : (0 : UInt64).toNat = 0 := rfl
      rw [hz] at hsub ⊢
      omega
  · rw [if_neg hk, if_neg hk]

end

/-- The undo of a transfer or a contract call restores the views exactly when they satisfied
`UndoRestores`. -/
theorem undo_transaction_iff (node : Node) (tx : CTransaction) (nIndex nHeight : ℤ)
    (nFuelRate : Int32) (vs : Views) (out : Executed) (hoff : node.cfg.bAddressToTx = false)
    (hkeyed : vs.view.WellKeyed) (hcounts : vs.scriptDB.CountsCanonical)
    (hexec : tx.executeTx node nIndex nHeight nFuelRate vs = .ok out) :
    (CBaseTransaction.transaction tx).undoExecuteTx node nIndex nHeight out.views out.undo = .ok vs ↔
      UndoRestores node tx nHeight nFuelRate vs := by
  obtain ⟨view, logs, vs', clogs, dblog, alogs, htrans, htype, hview, hlogs, haddr, hdblogs⟩ :=
    executeTx_cases hexec
  obtain ⟨hscript, rfl⟩ := writeAddressIndex_of_off hoff haddr
  rw [List.append_nil] at hdblogs
  obtain ⟨a, s, k, d', ht, rfl, rfl⟩ := transfer_wellKeyed hkeyed htrans
  have hbase : (CBaseTransaction.transaction tx).undoExecuteTx node nIndex nHeight out.views out.undo
      = undoExecuteBase node.cr tx.chTxType.toTxType
        ((CBaseTransaction.transaction tx).getHash node.cr.Hash) out.views out.undo := rfl
  rw [hbase, undoExecuteBase_eq_ok, hview, hlogs, hscript, hdblogs]
  unfold executeByType at htype
  cases hct : tx.chTxType with
  | common =>
    rw [hct] at htype
    obtain ⟨rfl, rfl, rfl, -⟩ : vs' = _ ∧ clogs = [] ∧ dblog = [] ∧ _ := by
      simpa [eq_comm] using Except.ok.inj htype
    rw [List.append_nil]
    have hiff := (ht.undo_iff hkeyed).trans ht.kept_iff
    simp only [UndoRestores, hct]
    constructor
    · rintro ⟨hacc, -⟩
      exact ⟨a, k, ht.source, ht.dest, hiff.mp hacc⟩
    · rintro ⟨a', k', ha', hk', hcond⟩
      obtain rfl := Option.some.inj (ht.source.symm.trans ha')
      obtain rfl := Option.some.inj (ht.dest.symm.trans hk')
      exact ⟨hiff.mpr hcond, vs.scriptDB, rfl, rfl⟩
  | contract =>
    rw [hct] at htype
    obtain ⟨des, cout, view', rel, hdes, hrun, hsave, hrel, rfl, rfl, -⟩ :=
      executeContract_cases htype
    set hash := (CBaseTransaction.transaction tx).getHash node.cr.Hash with hhash
    set v₁ := vs.view.setAccountKey a.cKeyID s with hv₁
    have hv₁keyed : v₁.WellKeyed := by
      rw [hv₁, ← ht.key]
      exact hkeyed.setAccountKey s
    have hv₂keyed : (v₁.setAccountKey k d').WellKeyed := by
      rw [← ht.desKey]
      exact hv₁keyed.setAccountKey d'
    -- both parties of the transfer exist
    obtain ⟨d, hd⟩ : ∃ d, v₁.accounts.lookup k = some d := by
      cases hlook : v₁.accounts.lookup k with
      | none =>
        have := ht.created hlook
        rw [hct] at this
        cases this
      | some d => exact ⟨d, rfl⟩
    have hadd := ht.add
    rw [← hv₁, hd, Option.getD_some] at hadd
    have htrail : Undo.Trail (undoAccountLog node.cr .contract) vs.view
        [.ofAccount a, .ofAccount d] (v₁.setAccountKey k d') := by
      have h1 := undoAccountLog_contract_restores node.cr ht.stored rfl
        (CAccount.operateAccount_sameIdentity node.cfg ht.minus)
      have h2 := undoAccountLog_contract_restores node.cr hd (hv₁keyed k d hd)
        (CAccount.operateAccount_sameIdentity node.cfg hadd)
      exact (Undo.Trail.single h1).append (Undo.Trail.single h2)
    have houtcome : tx.contractOutcome node nHeight nFuelRate vs = .ok cout := by
      unfold contractOutcome
      rw [htrans, Except.ok_bind]
      simp only [hdes, Exec.withRegID]
      exact hrun
    obtain ⟨r, s₁, db, app, mapOp, -, -, hops, -⟩ := CVmRunEvn.run_cases hrun
    have hover : cout.accounts.Over (v₁.setAccountKey k d') :=
      CVmRunEvn.opeatorAccount_over hv₂keyed hops
    obtain ⟨hacc', -, -⟩ := saveContractAccounts_accounts hv₂keyed hover hsave
    have hlogged := CVmRunEvn.run_logged hcounts hrun
    simp only [UndoRestores, hct]
    rw [hd, Option.getD_some]
    constructor
    · rintro ⟨hundo, s', hs', hws⟩
      refine ⟨fun out' hout' j hj => ?_, ?_⟩
      · obtain rfl := Except.ok.inj (houtcome.symm.trans hout')
        refine undoAccountLogs_contract_keeps hundo ?_
        rw [hacc', CVmRunEvn.AccountWork.overlay, Store.lookup_union]
        obtain ⟨x, hx⟩ := Option.isSome_iff_exists.mp ((hover.listed j).mpr hj)
        rw [hx]
        rfl
      · rw [undo_logged hlogged] at hs'
        obtain rfl := Except.ok.inj hs'
        have htag : CTransactionType.contract.toTxType = .contract := rfl
        rw [if_pos htag] at hws
        have hself : vs.scriptDB.setData (CScriptDBViewCache.txRelAccountKey hash) []
            = vs.scriptDB := by
          refine Eq.trans ?_ hws.symm
          exact (vs.scriptDB.setData_setData _ rel []).symm
        rw [CScriptDBViewCache.setData_eq_self_iff] at hself
        exact hself
    · rintro ⟨hall, hnorel⟩
      have hall' := hall cout houtcome
      have hstored : ∀ j ∈ cout.accounts.newAccont, ∃ x y,
          (v₁.setAccountKey k d').accounts.lookup j = some y ∧ y.cKeyID = j ∧
          cout.accounts.rawAccont.lookup j = some x ∧ x.SameIdentity y := by
        intro j hj
        obtain ⟨x, hx⟩ := Option.isSome_iff_exists.mp ((hover.listed j).mpr hj)
        obtain ⟨y, hy⟩ : ∃ y, (v₁.setAccountKey k d').accounts.lookup j = some y := by
          have hlive₁ : s.cKeyID ≠ 0 := by
            rw [ht.key]
            exact vs.view.live _ a ht.stored
          have hlive₂ : d'.cKeyID ≠ 0 := by
            rw [ht.desKey, ← hv₁keyed k d hd]
            exact v₁.live k d hd
          obtain ⟨y, hy⟩ := Option.isSome_iff_exists.mp (hall' j hj)
          rw [CAccountViewCache.setAccountKey_accounts, Store.lookup_put,
            CAccountViewCache.liveAccount_of_ne hlive₂, hv₁,
            CAccountViewCache.setAccountKey_accounts, Store.lookup_put,
            CAccountViewCache.liveAccount_of_ne hlive₁, hy]
          split
          · exact ⟨d', rfl⟩
          · split
            · exact ⟨s, rfl⟩
            · exact ⟨y, rfl⟩
        have hid := (hover.same j x hx).2
        rw [hy] at hid
        exact ⟨x, y, hy, hv₂keyed j y hy, hx, hid⟩
      obtain ⟨new, rfl, htrail'⟩ := saveContractAccounts_trail node.cr hstored hsave
      refine ⟨(htrail.append htrail').undoAll, _, undo_logged hlogged _ hash rel, ?_⟩
      have htag : CTransactionType.contract.toTxType = .contract := rfl
      rw [if_pos htag]
      exact ((vs.scriptDB.setData_setData _ rel []).trans (vs.scriptDB.setData_nil hnorel)).symm

/-! ## Two transfers of the sample node -/

/-- A transfer of 1000 for a fee of 10000. -/
def sampleTx (des : CUserID) : CTransaction where
  chTxType := .common
  nVersion := 2
  nValidHeight := 100
  cSrcRegId := .regID ⟨50, 1⟩
  cDesUserId := des
  ullFees := 10000
  ullValues := 1000
  vchContract := []
  vchSignature := []

/-- A registered account, and a contract's account that has no balance yet. -/
def sampleViews : Views where
  view := Sample.viewOf
    [Sample.holder, CRegisterAppTx.contractAccount Sample.crypto ⟨60, 1⟩]
    [(⟨50, 1⟩, Sample.keyId 5), (⟨60, 1⟩, CRegisterAppTx.contractKeyId Sample.crypto ⟨60, 1⟩)] 0
  scriptDB := Sample.scriptsOf []

/-- The contract's account is gone after the first payment to it is undone. -/
theorem undo_loses_contract : ∃ out ws,
    (sampleTx (.regID ⟨60, 1⟩)).executeTx Sample.node 1 100 100 sampleViews = .ok out ∧
    (CBaseTransaction.transaction (sampleTx (.regID ⟨60, 1⟩))).undoExecuteTx Sample.node 1 100
      out.views out.undo = .ok ws ∧
    (sampleViews.view.getAccountReg ⟨60, 1⟩).isSome = true ∧
    ws.view.getAccountReg ⟨60, 1⟩ = none :=
  ⟨_, _, rfl, rfl, by decide, by decide⟩

/-- A payment to a new address is undone without a trace. -/
theorem undo_transaction_iff_new : ∃ out,
    (sampleTx (.keyID (Sample.keyId 9))).executeTx Sample.node 1 100 100 sampleViews = .ok out ∧
    (CBaseTransaction.transaction (sampleTx (.keyID (Sample.keyId 9)))).undoExecuteTx Sample.node
      1 100 out.views out.undo = .ok sampleViews :=
  ⟨_, rfl, (undo_transaction_iff Sample.node (sampleTx (.keyID (Sample.keyId 9))) 1 100 100
    sampleViews _ rfl (Sample.viewOf_wellKeyed _ _ _) Sample.scriptsOf_nil_countsCanonical rfl).mpr
    ⟨Sample.holder, Sample.keyId 9, by decide, by decide, by decide, by decide⟩⟩

end CTransaction

end Dacrs
