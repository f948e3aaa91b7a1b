import Dacrs.ExecuteSpec
import Dacrs.Sample

/-!
# Undoing the registration of a contract

`CRegisterAppTx::UndoExecuteTx` against `CRegisterAppTx::ExecuteTx`, the address index being
off.  Registering writes a fresh account under the contract's key id and maps the contract's
reg id to it, whatever was there; it logs neither.  The undo removes both, except that a script
field of six bytes makes it remove nothing.  `undo_registerApp_iff` is the exact condition under
which the two together change nothing.
-/

open Codec (Bytes)

namespace Dacrs

namespace CRegisterAppTx

open CAccountViewCache (liveAccount liveKey)

variable {node : Node} {tx : CRegisterAppTx} {nIndex nHeight : ℤ} {vs : Views}

/-! ## The two halves of the undo -/

/-- The view a registration leaves: the contract's account first, then the registrant. -/
def registered (cr : Crypto) (cRegId : CRegID) (acct : CAccount) (v : CAccountViewCache) :
    CAccountViewCache :=
  (v.saveAccountInfo cRegId (contractKeyId cr cRegId) (contractAccount cr cRegId)).setAccountKey
    acct.cKeyID acct

theorem registered_keyIds (cr : Crypto) (r : CRegID) (b : CAccount) (v : CAccountViewCache) :
    (registered cr r b v).keyIds = v.keyIds.put r (liveKey (contractKeyId cr r)) := rfl

theorem registered_accounts (cr : Crypto) (r : CRegID) {b : CAccount} (v : CAccountViewCache)
    (hlive : b.cKeyID ≠ 0) :
    (registered cr r b v).accounts
      = (v.accounts.put (contractKeyId cr r) (liveAccount (contractAccount cr r))).put b.cKeyID
        (some b) := by
  rw [← CAccountViewCache.liveAccount_of_ne hlive]
  rfl

theorem eraseContract_of_six (h6 : tx.vchScript.length = 6) (r : CRegID) (ws : Views) :
    tx.eraseContract node r ws = .ok ws := if_pos h6

/-- What removing the contract does. -/
theorem eraseContract_eq_ok (h6 : tx.vchScript.length ≠ 6) {r : CRegID} {ws es : Views} :
    tx.eraseContract node r ws = .ok es ↔
      ws.scriptDB.eraseScript r.getVec6 = .ok es.scriptDB ∧
        es.view = (ws.view.eraseKeyId r).eraseAccountKey (contractKeyId node.cr r) := by
  unfold eraseContract
  rw [if_neg h6, Except.bind_eq_ok]
  constructor
  · rintro ⟨s, hs, h⟩
    obtain rfl := Except.ok.inj h
    exact ⟨Exec.onFalse_eq_ok.mp hs, rfl⟩
  · rintro ⟨hs, hview⟩
    refine ⟨es.scriptDB, Exec.onFalse_eq_ok.mpr hs, ?_⟩
    rw [← hview]
    rfl

/-- An undo without script logs: the registrant is read, the contract removed, and the
registrant written back. -/
theorem undoExecuteTx_eq_ok {ws ws' : Views} {undo : CTxUndo} (hlogs : undo.vcScriptOperLog = []) :
    tx.undoExecuteTx node nIndex nHeight ws undo = .ok ws' ↔
      ∃ c es, ws.view.getAccount node.cr tx.cRegAcctId = some c ∧
        tx.eraseContract node (.ofPosition nHeight nIndex) ws = .ok es ∧
        ws' = ⟨es.view.setAccountKey (undoFee undo c).cKeyID (undoFee undo c), es.scriptDB⟩ := by
  unfold undoExecuteTx
  rw [Except.bind_eq_ok]
  constructor
  · rintro ⟨c, hc, h⟩
    rw [Exec.ofOption_eq_ok (fails_updateFail _)] at hc
    rw [Except.bind_eq_ok] at h
    obtain ⟨es, hes, h⟩ := h
    rw [hlogs] at h
    exact ⟨c, es, hc, hes, (Except.ok.inj h).symm⟩
  · rintro ⟨c, es, hc, hes, rfl⟩
    refine ⟨c, (Exec.ofOption_eq_ok (fails_updateFail _)).mpr hc, ?_⟩
    rw [hes, Except.ok_bind, hlogs]
    rfl

/-! ## The registrant -/

section
variable {a b c : CAccount} {k : CKeyID} {undo : CTxUndo}

/-- The registrant comes back, unless the account it was read from is the one the contract's
account replaced. -/
theorem undoFee_registered {v : CAccountViewCache} (r : CRegID)
    (hpay : tx.payFee node nHeight a = .ok (b, undo.vcAccountLog)) (ha : v.accounts.lookup k = some a)
    (hkc : k = contractKeyId node.cr r → a.cKeyID = contractKeyId node.cr r) :
    ∃ c, (registered node.cr r b v).accounts.lookup k = some c ∧ undoFee undo c = a := by
  obtain ⟨hid, -, hlogs⟩ := payFee_cases hpay
  have hlive : b.cKeyID ≠ 0 := by
    rw [hid.cKeyID]
    exact v.live k a ha
  rw [registered_accounts node.cr r v hlive, Store.lookup_put]
  by_cases hk : k = b.cKeyID
  · rw [if_pos hk]
    refine ⟨b, rfl, ?_⟩
    rcases hlogs with ⟨hlogs, rfl⟩ | hlogs
    · rw [undoFee, hlogs]
      rfl
    · have hkey : ((CAccountLog.ofAccount a).cKeyID == b.cKeyID) = true := by
        simp [CAccountLog.ofAccount, hid.cKeyID]
      simp only [undoFee, hlogs, List.filter_cons, hkey, if_true, List.filter_nil,
        List.foldl_cons, List.foldl_nil]
      exact hid.undo_log
  · have hkc' : k ≠ contractKeyId node.cr r := by
      intro heq
      exact hk (heq.trans ((hkc heq).symm.trans hid.cKeyID.symm))
    rw [if_neg hk, Store.lookup_put_ne _ _ hkc', ha]
    refine ⟨a, rfl, ?_⟩
    rcases hlogs with ⟨hlogs, -⟩ | hlogs
    · rw [undoFee, hlogs]
      rfl
    · have hkey : ((CAccountLog.ofAccount a).cKeyID == a.cKeyID) = true := by
        simp [CAccountLog.ofAccount]
      simp only [undoFee, hlogs, List.filter_cons, hkey, if_true, List.filter_nil,
        List.foldl_cons, List.foldl_nil]
      exact (CAccount.SameIdentity.refl a).undo_log

/-- In that other case the undo writes to the contract's key id. -/
theorem undoFee_replaced {v : CAccountViewCache} (r : CRegID)
    (hpay : tx.payFee node nHeight a = .ok (b, undo.vcAccountLog))
    (ha : v.accounts.lookup (contractKeyId node.cr r) = some a)
    (hne : a.cKeyID ≠ contractKeyId node.cr r)
    (hc : (registered node.cr r b v).accounts.lookup (contractKeyId node.cr r) = some c) :
    (undoFee undo c).cKeyID = contractKeyId node.cr r := by
  obtain ⟨hid, -, hlogs⟩ := payFee_cases hpay
  have hlive : b.cKeyID ≠ 0 := by
    rw [hid.cKeyID]
    exact v.live _ a ha
  have hne' : contractKeyId node.cr r ≠ b.cKeyID := by
    rw [hid.cKeyID]
    exact hne.symm
  rw [registered_accounts node.cr r v hlive, Store.lookup_put_ne _ _ hne',
    Store.lookup_put_self] at hc
  have hck : c.cKeyID = contractKeyId node.cr r := by
    unfold CAccountViewCache.liveAccount at hc
    split at hc
    · cases hc
    · obtain rfl := Option.some.inj hc
      rfl
  have hfilter : undo.vcAccountLog.filter (·.cKeyID == c.cKeyID) = [] := by
    rcases hlogs with ⟨hlogs, -⟩ | hlogs
    · rw [hlogs]
      rfl
    · rw [hlogs, hck]
      simp [CAccountLog.ofAccount, hne]
  rw [undoFee, hfilter, ← hck]
  rfl

end

/-! ## When the undo restores -/

/-- The state before a registration that its undo restores.  The registrant lies under its own
key id, and it is the only account that may lie under the contract's key id.  A script of six
bytes must already be registered, with its reg id and account; any other script must be new. -/
def UndoRestores (node : Node) (tx : CRegisterAppTx) (nIndex nHeight : ℤ) (vs : Views) : Prop :=
  let r := CRegID.ofPosition nHeight nIndex
  let k := contractKeyId node.cr r
  ∃ a, vs.view.getAccount node.cr tx.cRegAcctId = some a ∧
    vs.view.accounts.lookup a.cKeyID = some a ∧
    if tx.vchScript.length = 6 then
      vs.scriptDB.getScript r.getVec6 = some tx.vchScript ∧
      vs.view.keyIds.lookup r = liveKey k ∧
      (a.cKeyID = k ∨ vs.view.accounts.lookup k = liveAccount (contractAccount node.cr r))
    else
      (vs.scriptDB.haveScript r.getVec6 = false ∧
        vs.scriptDB.CanonicalCount CScriptDBViewCache.scriptCountKey) ∧
      vs.view.keyIds.lookup r = none ∧
      (a.cKeyID = k ∨ vs.view.accounts.lookup k = none)

section
variable {a b : CAccount} {v : CAccountViewCache}

/-- A script of six bytes: nothing is removed. -/
theorem registered_restore_iff (r : CRegID) (hid : b.SameIdentity a) (hlive : a.cKeyID ≠ 0) :
    (registered node.cr r b v).setAccountKey a.cKeyID a = v ↔
      v.accounts.lookup a.cKeyID = some a ∧ v.keyIds.lookup r = liveKey (contractKeyId node.cr r) ∧
        (a.cKeyID = contractKeyId node.cr r ∨
          v.accounts.lookup (contractKeyId node.cr r) = liveAccount (contractAccount node.cr r)) := by
  have hacc : ((registered node.cr r b v).setAccountKey a.cKeyID a).accounts
      = (v.accounts.put (contractKeyId node.cr r) (liveAccount (contractAccount node.cr r))).put
        a.cKeyID (some a) := by
    rw [CAccountViewCache.setAccountKey_accounts, registered_accounts node.cr r v
      (by rw [hid.cKeyID]; exact hlive), hid.cKeyID, Store.put_put,
      CAccountViewCache.liveAccount_of_ne hlive]
  constructor
  · intro h
    have h1 := congrArg CAccountViewCache.accounts h
    have h2 := congrArg CAccountViewCache.keyIds h
    rw [hacc, Store.put_put_eq_self_iff] at h1
    rw [CAccountViewCache.setAccountKey_keyIds, registered_keyIds, Store.put_eq_self_iff] at h2
    exact ⟨h1.1, h2.symm, h1.2⟩
  · rintro ⟨hself, hmap, hk⟩
    refine CAccountViewCache.ext_maps ?_ ?_ rfl
    · rw [hacc, Store.put_put_eq_self_iff]
      exact ⟨hself, hk⟩
    · rw [CAccountViewCache.setAccountKey_keyIds, registered_keyIds, Store.put_eq_self_iff]
      exact hmap.symm

/-- Any other script: the contract is removed first. -/
theorem registered_erase_restore_iff (r : CRegID) (hid : b.SameIdentity a) (hlive : a.cKeyID ≠ 0) :
    (((registered node.cr r b v).eraseKeyId r).eraseAccountKey
        (contractKeyId node.cr r)).setAccountKey a.cKeyID a = v ↔
      v.accounts.lookup a.cKeyID = some a ∧ v.keyIds.lookup r = none ∧
        (a.cKeyID = contractKeyId node.cr r ∨
          v.accounts.lookup (contractKeyId node.cr r) = none) := by
  have hacc : ((((registered node.cr r b v).eraseKeyId r).eraseAccountKey
      (contractKeyId node.cr r)).setAccountKey a.cKeyID a).accounts
      = (v.accounts.put (contractKeyId node.cr r) none).put a.cKeyID (some a) := by
    rw [CAccountViewCache.setAccountKey_accounts, CAccountViewCache.eraseAccountKey_accounts,
      CAccountViewCache.eraseKeyId_accounts, registered_accounts node.cr r v
      (by rw [hid.cKeyID]; exact hlive), hid.cKeyID, Store.put_put_put_put,
      CAccountViewCache.liveAccount_of_ne hlive]
  have hmap : ((((registered node.cr r b v).eraseKeyId r).eraseAccountKey
      (contractKeyId node.cr r)).setAccountKey a.cKeyID a).keyIds = v.keyIds.put r none := by
    rw [CAccountViewCache.setAccountKey_keyIds, CAccountViewCache.eraseAccountKey_keyIds,
      CAccountViewCache.eraseKeyId_keyIds, registered_keyIds, Store.put_put]
  constructor
  · intro h
    have h1 := congrArg CAccountViewCache.accounts h
    have h2 := congrArg CAccountViewCache.keyIds h
    rw [hacc, Store.put_put_eq_self_iff] at h1
    rw [hmap, Store.put_eq_self_iff] at h2
    exact ⟨h1.1, h2.symm, h1.2⟩
  · rintro ⟨hself, hnone, hk⟩
    refine CAccountViewCache.ext_maps ?_ ?_ rfl
    · rw [hacc, Store.put_put_eq_self_iff]
      exact ⟨hself, hk⟩
    · rw [hmap, Store.put_eq_self_iff]
      exact hnone.symm

end

/-- The name of the registrant stands for the same key id before and after, unless it is the
contract's reg id and the mapping of that changed. -/
theorem getKeyId_registered {a : CAccount} {id : CUserID} (cr : Crypto) (r : CRegID) (b : CAccount)
    (v : CAccountViewCache) (ha : v.getAccount cr id = some a)
    (hmap : v.keyIds.lookup r = none ∨ v.keyIds.lookup r = liveKey (contractKeyId cr r)) :
    (registered cr r b v).getKeyId cr id = v.getKeyId cr id := by
  refine CAccountViewCache.getKeyId_congr cr fun r' hid => ?_
  rw [registered_keyIds, Store.lookup_put]
  split
  · next hr =>
    subst hr
    rcases hmap with hnone | hsame
    · -- the registrant was found through a mapping that does not exist
      rw [hid] at ha
      simp [CAccountViewCache.getAccount, CAccountViewCache.getAccountReg, hnone] at ha
    · exact hsame.symm
  · rfl

/-- The undo of a registration restores the views exactly when they satisfied `UndoRestores`. -/
theorem undo_registerApp_iff (node : Node) (tx : CRegisterAppTx) (nIndex nHeight : ℤ)
    (vs : Views) (out : Executed) (hoff : node.cfg.bAddressToTx = false)
    (hexec : tx.executeTx node nIndex nHeight vs = .ok out) :
    tx.undoExecuteTx node nIndex nHeight out.views out.undo = .ok vs ↔
      UndoRestores node tx nIndex nHeight vs := by
  obtain ⟨a, b, logs, s, ha, hpay, hne, hs, hview, hlogs, -, haddr⟩ := executeTx_cases hexec
  obtain ⟨hscript, hdblogs⟩ := writeAddressIndex_of_off hoff haddr
  subst hlogs
  have hreg : out.views
      = ⟨registered node.cr (.ofPosition nHeight nIndex) b vs.view, s⟩ := by
    exact Views.ext hview hscript
  obtain ⟨hid, -, -⟩ := payFee_cases hpay
  obtain ⟨k, hk, hka⟩ := (vs.view.getAccount_eq_some_iff node.cr _ a).mp ha
  have hlive : a.cKeyID ≠ 0 := vs.view.live k a hka
  rw [undoExecuteTx_eq_ok hdblogs, hreg]
  set r := CRegID.ofPosition nHeight nIndex with hr
  constructor
  · rintro ⟨c, es, hc, hes, hvs⟩
    obtain ⟨k', hk', hkc⟩ := (CAccountViewCache.getAccount_eq_some_iff _ node.cr _ c).mp hc
    -- the mapping is restored, so the registrant was read under its old key id
    have hmap : vs.view.keyIds.lookup r = none ∨
        vs.view.keyIds.lookup r = liveKey (contractKeyId node.cr r) := by
      by_cases h6 : tx.vchScript.length = 6
      · rw [eraseContract_of_six h6] at hes
        obtain rfl := Except.ok.inj hes
        right
        rw [hvs, CAccountViewCache.setAccountKey_keyIds, registered_keyIds, Store.lookup_put_self]
      · obtain ⟨-, hesv⟩ := (eraseContract_eq_ok h6).mp hes
        left
        rw [hvs, CAccountViewCache.setAccountKey_keyIds, hesv,
          CAccountViewCache.eraseAccountKey_keyIds, CAccountViewCache.eraseKeyId_keyIds,
          Store.lookup_put_self]
    rw [getKeyId_registered node.cr r b vs.view ha hmap, hk] at hk'
    obtain rfl := Option.some.inj hk'
    have hkeep : k = contractKeyId node.cr r → a.cKeyID = contractKeyId node.cr r := by
      intro heq
      subst heq
      by_contra hneq
      -- the account under the contract's key id would be the contract's, not the registrant
      have hx := undoFee_replaced r hpay hka hneq hkc
      have hlook := hka
      rw [hvs, CAccountViewCache.setAccountKey_accounts, hx, Store.lookup_put_self] at hlook
      have hsame : a = undoFee out.undo c := by
        unfold CAccountViewCache.liveAccount at hlook
        split at hlook
        · cases hlook
        · exact (Option.some.inj hlook).symm
      exact hneq (by rw [hsame]; exact hx)
    obtain ⟨c', hkc', hback⟩ := undoFee_registered r hpay hka hkeep
    obtain rfl := Option.some.inj (hkc.symm.trans hkc')
    rw [hback] at hvs
    refine ⟨a, ha, ?_⟩
    by_cases h6 : tx.vchScript.length = 6
    · rw [eraseContract_of_six h6] at hes
      obtain rfl := Except.ok.inj hes
      obtain ⟨hself, hrest⟩ := (registered_restore_iff r hid hlive).mp
        (congrArg Views.view hvs).symm
      have hdb : s = vs.scriptDB := (congrArg Views.scriptDB hvs).symm
      rw [if_pos h6]
      exact ⟨hself, (CScriptDBViewCache.setScript_eq_self_iff hne hs).mp hdb, hrest⟩
    · obtain ⟨herase, hesv⟩ := (eraseContract_eq_ok h6).mp hes
      rw [hesv] at hvs
      obtain ⟨hself, hrest⟩ := (registered_erase_restore_iff r hid hlive).mp
        (congrArg Views.view hvs).symm
      have hdb : es.scriptDB = vs.scriptDB := (congrArg Views.scriptDB hvs).symm
      rw [hdb] at herase
      rw [if_neg h6]
      exact ⟨hself, (CScriptDBViewCache.eraseScript_setScript_iff hne hs).mp herase, hrest⟩
  · rintro ⟨a', ha', hself, hrest⟩
    obtain rfl := Option.some.inj (ha.symm.trans ha')
    have hmap : vs.view.keyIds.lookup r = none ∨
        vs.view.keyIds.lookup r = liveKey (contractKeyId node.cr r) := by
      split at hrest
      · exact .inr hrest.2.1
      · exact .inl hrest.2.1
    have hkeep : k = contractKeyId node.cr r → a.cKeyID = contractKeyId node.cr r := by
      intro heq
      subst heq
      by_contra hneq
      split at hrest
      · have hlook := hrest.2.2.resolve_left hneq
        rw [hka] at hlook
        unfold CAccountViewCache.liveAccount at hlook
        split at hlook
        · cases hlook
        · obtain rfl := Option.some.inj hlook
          exact hneq rfl
      · have hlook := hrest.2.2.resolve_left hneq
        rw [hka] at hlook
        cases hlook
    obtain ⟨c, hkc, hback⟩ := undoFee_registered r hpay hka hkeep
    have hc : (registered node.cr r b vs.view).getAccount node.cr tx.cRegAcctId = some c := by
      refine (CAccountViewCache.getAccount_eq_some_iff _ node.cr _ c).mpr ⟨k, ?_, hkc⟩
      rw [getKeyId_registered node.cr r b vs.view ha hmap, hk]
    by_cases h6 : tx.vchScript.length = 6
    · rw [if_pos h6] at hrest
      refine ⟨c, _, hc, eraseContract_of_six h6 r _, ?_⟩
      rw [hback]
      exact Views.ext ((registered_restore_iff r hid hlive).mpr ⟨hself, hrest.2⟩).symm
        ((CScriptDBViewCache.setScript_eq_self_iff hne hs).mpr hrest.1).symm
    · rw [if_neg h6] at hrest
      refine ⟨c, ⟨((registered node.cr r b vs.view).eraseKeyId r).eraseAccountKey
        (contractKeyId node.cr r), vs.scriptDB⟩, hc, (eraseContract_eq_ok h6).mpr ⟨?_, rfl⟩, ?_⟩
      · exact (CScriptDBViewCache.eraseScript_setScript_iff hne hs).mpr hrest.1
      · rw [hback]
        exact Views.ext ((registered_erase_restore_iff r hid hlive).mpr ⟨hself, hrest.2⟩).symm rfl

/-! ## Two registrations of the sample node -/

/-- Registers an 8051 program for a fee of one coin. -/
def sampleTx : CRegisterAppTx where
  nVersion := 2
  nValidHeight := 100
  cRegAcctId := .regID ⟨50, 1⟩
  vchScript := Sample.programBytes
  ullFees := 100000000
  vchSignature := []

/-- The registrant, and the accounts already under the contract's key id. -/
def sampleViews (existing : List CAccount) : Views where
  view := Sample.viewOf (Sample.holder :: existing) [(⟨50, 1⟩, Sample.keyId 5)] 0
  scriptDB := Sample.scriptsOf []

/-- An address that had been paid before the contract took it over loses its balance. -/
theorem undo_loses_account : ∃ out ws,
    let k := contractKeyId Sample.crypto ⟨100, 1⟩
    let vs := sampleViews [{ CAccount.fresh k with ullValues := 7 }]
    sampleTx.executeTx Sample.node 1 100 vs = .ok out ∧
    sampleTx.undoExecuteTx Sample.node 1 100 out.views out.undo = .ok ws ∧
    (vs.view.accounts.lookup k).isSome = true ∧ ws.view.accounts.lookup k = none :=
  ⟨_, _, rfl, rfl, by decide, by decide⟩

/-- Without one everything is restored. -/
theorem undo_registerApp_iff_fresh : ∃ out,
    sampleTx.executeTx Sample.node 1 100 (sampleViews []) = .ok out ∧
    sampleTx.undoExecuteTx Sample.node 1 100 out.views out.undo = .ok (sampleViews []) :=
  ⟨_, rfl, (undo_registerApp_iff Sample.node sampleTx 1 100 (sampleViews []) _ rfl rfl).mpr
    ⟨Sample.holder, by decide, by decide,
      ⟨by decide, 0, by decide, by decide⟩, by decide, .inr (by decide)⟩⟩

end CRegisterAppTx

end Dacrs
