import Dacrs.ContractSpec

/-!
# What no execution touches

Executing a transaction writes accounts and, for the two registrations, one registration id; the
best block of the account view stays what it is.
-/

open Codec (Bytes)

namespace Dacrs

/-- Only accounts differ. -/
def CAccountViewCache.SameNames (w v : CAccountViewCache) : Prop :=
  w.keyIds = v.keyIds ∧ w.cHashBlock = v.cHashBlock

namespace CAccountViewCache

variable {v w u : CAccountViewCache} {cr : Crypto} {id : CUserID} {a : CAccount}

theorem SameNames.trans (h : w.SameNames v) (h' : v.SameNames u) : w.SameNames u :=
  ⟨h.1.trans h'.1, h.2.trans h'.2⟩

theorem SameNames.getKeyId (h : w.SameNames v) (cr : Crypto) (id : CUserID) :
    w.getKeyId cr id = v.getKeyId cr id := by
  refine getKeyId_congr cr fun r _ => ?_
  rw [h.1]

theorem setAccount_sameNames (h : v.setAccount cr id a = some w) : w.SameNames v := by
  cases id with
  | regID r =>
    obtain ⟨k, -, rfl⟩ := Option.map_eq_some_iff.mp h
    exact ⟨rfl, rfl⟩
  | keyID k =>
    obtain rfl := Option.some.inj h
    exact ⟨rfl, rfl⟩
  | pubKey p =>
    obtain rfl := Option.some.inj h
    exact ⟨rfl, rfl⟩
  | null => cases h

end CAccountViewCache

namespace CTransaction

variable {node : Node} {tx : CTransaction} {nHeight : ℤ}

theorem transfer_sameNames {view view' : CAccountViewCache} {logs : List CAccountLog}
    (h : tx.transfer node nHeight view = .ok (view', logs)) : view'.SameNames view := by
  obtain ⟨a, s, d, d', dlog, -, -, -, -, hset, -⟩ := transfer_cases h
  have hdes := CAccountViewCache.setAccount_sameNames hset
  exact hdes

theorem saveContractAccounts_sameNames {w : CVmRunEvn.AccountWork} {keys : List CKeyID}
    {view view' : CAccountViewCache} {logs logs' : List CAccountLog}
    (h : keys.foldlM (saveContractAccount w) (view, logs) = .ok (view', logs')) :
    view'.SameNames view := by
  refine Except.foldlM_invariant (fun st => st.1.SameNames view)
    (saveContractAccount w) keys ?_ ⟨rfl, rfl⟩ h
  rintro ⟨v, l⟩ k ⟨v', l'⟩ - hv hstep
  obtain ⟨rfl, -⟩ := saveContractAccount_cases hstep
  exact hv

theorem executeByType_sameNames {nFuelRate : Int32} {vs vs' : Views} {alogs : List CAccountLog}
    {dblog : List CScriptDBOperLog} {step : UInt64}
    (h : tx.executeByType node nHeight nFuelRate vs = .ok (vs', alogs, dblog, step)) :
    vs'.view.SameNames vs.view := by
  unfold executeByType at h
  split at h
  · obtain ⟨des, out, view', rel, -, -, hsave, -, rfl, -⟩ := executeContract_cases h
    exact saveContractAccounts_sameNames hsave
  · obtain rfl := congrArg Prod.fst (Except.ok.inj h)
    exact ⟨rfl, rfl⟩

end CTransaction

/-- Every transaction leaves the best block alone. -/
theorem CBaseTransaction.executeTx_cHashBlock {node : Node} {tx : CBaseTransaction}
    {nIndex nHeight : ℤ} {nFuelRate : Int32} {vs : Views} {out : Executed}
    (h : tx.executeTx node nIndex nHeight nFuelRate vs = .ok out) :
    out.views.view.cHashBlock = vs.view.cHashBlock := by
  cases tx with
  | reward tx =>
    obtain ⟨r, a, b, -, -, -, hview, -⟩ := CRewardTransaction.executeTx_cases h
    rw [hview]
    rfl
  | registerAccount tx =>
    obtain ⟨pk, a, b, -, -, -, hview, -⟩ := CRegisterAccountTx.executeTx_cases h
    rw [hview]
    rfl
  | transaction tx =>
    obtain ⟨view, logs, vs', clogs, dblog, alogs, htrans, htype, hview, -⟩ :=
      CTransaction.executeTx_cases h
    rw [hview]
    exact ((CTransaction.executeByType_sameNames htype).trans (CTransaction.transfer_sameNames htrans)).2
  | registerApp tx =>
    obtain ⟨a, b, logs, s, -, -, -, -, hview, -⟩ := CRegisterAppTx.executeTx_cases h
    rw [hview]
    rfl

end Dacrs
