import Dacrs.ExecuteSpec
import Dacrs.Sample

/-!
# Undoing a registration

`CRegisterAccountTx::UndoExecuteTx` against `CRegisterAccountTx::ExecuteTx`.  The undo puts the
balance back and clears the two public keys, but it leaves the reg id in the account, erases an
account whose old balance was zero, forgets an older public or miner key, and does not look at
the script log of the address index.  `undo_executeTx_iff` is the exact condition under which
it restores the views.
-/

open Codec (Bytes)

namespace Dacrs

/-! ## The address index -/

/-- The key of an index entry. -/
def addressKey (k : CKeyID) (nHeight nIndex : ℤ) : Bytes :=
  CScriptDBViewCache.addrPrefix ++ uint160Codec.write k ++
    Codec.i32.write (Int32.ofInt nHeight) ++ Codec.i32.write (Int32.ofInt (nIndex + 1))

theorem getHex_ne_nil (h : Uint256) : getHex h ≠ [] := by
  intro hnil
  have hl := congrArg List.length hnil
  simp [getHex, List.length_flatMap] at hl

/-- Registration writes at most one entry, for the registered key. -/
theorem writeAddressIndex_pubKey {node : Node} {vs : Views} {pk : CPubKey} {nHeight nIndex : ℤ}
    {hash : Uint256} {s : CScriptDBViewCache} {logs : List CScriptDBOperLog}
    (h : writeAddressIndex node vs [.pubKey pk] nHeight nIndex hash = .ok (s, logs)) :
    s = if node.cfg.bAddressToTx then
        vs.scriptDB.setData (addressKey (pk.getKeyID node.cr) nHeight nIndex) (getHex hash)
      else vs.scriptDB := by
  unfold writeAddressIndex at h
  split at h
  · next hon =>
    rw [if_pos hon]
    exact (congrArg Prod.fst (Except.ok.inj h)).symm
  · next hoff =>
    rw [if_neg hoff]
    exact (congrArg Prod.fst (Except.ok.inj h)).symm

namespace CRegisterAccountTx

variable {node : Node} {tx : CRegisterAccountTx} {nIndex nHeight : ℤ} {vs : Views}

/-! ## When the undo restores -/

/-- The state before a registration that its undo can restore: the account lies under its own
key, has a balance, no key yet, and already the very reg id it is about to get, while that id is
not mapped; and the address index is off or already holds the entry. -/
def UndoRestores (node : Node) (tx : CRegisterAccountTx) (nIndex nHeight : ℤ) (vs : Views) : Prop :=
  ∃ pk a, tx.cUserId = .pubKey pk ∧ vs.view.accounts.lookup (pk.getKeyID node.cr) = some a ∧
    (pk.getKeyID node.cr ≠ 0 ∧ (0 < tx.llFees → a.cKeyID = pk.getKeyID node.cr)) ∧
    (a.ullValues ≠ 0 ∧ a.cPublicKey = CPubKey.invalid ∧ a.cMinerPKey = CPubKey.invalid ∧
      a.cRegID = CRegID.ofPosition nHeight nIndex) ∧
    vs.view.keyIds.lookup (.ofPosition nHeight nIndex) = none ∧
    (node.cfg.bAddressToTx = true →
      vs.scriptDB.getData (addressKey (pk.getKeyID node.cr) nHeight nIndex)
        = some (getHex ((CBaseTransaction.registerAccount tx).getHash node.cr.Hash)))

/-- The undo after the account has been found. -/
theorem undoExecuteTx_of_lookup {ws : Views} {undo : CTxUndo} {k : CKeyID} {b : CAccount}
    (hmap : ws.view.keyIds.lookup (.ofPosition nHeight nIndex) = some k)
    (hacct : ws.view.accounts.lookup k = some b) :
    tx.undoExecuteTx node nIndex nHeight ws undo = (do
      let old ← tx.undoFee k undo b
      let view := if ¬ old.isEmptyValue then
          ws.view.setAccountKey k
            { old with cPublicKey := CPubKey.invalid, cMinerPKey := CPubKey.invalid }
        else (ws.view.eraseAccount node.cr tx.cUserId).getD ws.view
      return ⟨view.eraseKeyId (.ofPosition nHeight nIndex), ws.scriptDB⟩) := by
  have hreg : ws.view.getAccountReg (.ofPosition nHeight nIndex) = some b := by
    simp only [CAccountViewCache.getAccountReg, hmap, hacct]
  have hkey : ws.view.getKeyId node.cr (.regID (.ofPosition nHeight nIndex)) = some k := hmap
  unfold undoExecuteTx
  dsimp only
  rw [hreg, hkey]
  rfl

/-- The balance is put back from the log of the old account. -/
theorem undoFee_of_log {k : CKeyID} {undo : CTxUndo} {a b : CAccount}
    (hlog : undo.vcAccountLog = [CAccountLog.ofAccount a]) :
    tx.undoFee k undo b =
      if 0 < tx.llFees then
        if a.cKeyID = k then .ok (b.undoOperateAccount (.ofAccount a))
        else Exec.updateFail "bad-read-txundoinfo"
      else .ok b := by
  unfold undoFee
  rw [hlog]
  split
  · by_cases hk : a.cKeyID = k
    · simp [List.find?, CAccountLog.ofAccount, hk]
    · have hk' : ((CAccountLog.ofAccount a).cKeyID == k) = false := beq_false_of_ne hk
      simp [List.find?, hk', hk]
  · rfl

section
variable {pk m : CPubKey} {a b : CAccount} {s : CScriptDBViewCache} {undo : CTxUndo}

/-- The view after execution and undo, when the undo goes through. -/
theorem undo_saveAccountInfo (hpk : tx.cUserId = .pubKey pk)
    (hlive : b.cKeyID ≠ 0) (hk0 : pk.getKeyID node.cr ≠ 0)
    (hlog : undo.vcAccountLog = [CAccountLog.ofAccount a])
    (hold : (if 0 < tx.llFees then b.undoOperateAccount (.ofAccount a) else b)
      = registered pk m (.ofPosition nHeight nIndex) a)
    (hfee : 0 < tx.llFees → a.cKeyID = pk.getKeyID node.cr) :
    tx.undoExecuteTx node nIndex nHeight
        ⟨vs.view.saveAccountInfo (.ofPosition nHeight nIndex) (pk.getKeyID node.cr) b, s⟩ undo
      = .ok ⟨if a.ullValues = 0 then
            (vs.view.eraseAccountKey (pk.getKeyID node.cr)).eraseKeyId (.ofPosition nHeight nIndex)
          else (vs.view.setAccountKey (pk.getKeyID node.cr)
            (registered CPubKey.invalid CPubKey.invalid (.ofPosition nHeight nIndex) a)).eraseKeyId
              (.ofPosition nHeight nIndex), s⟩ := by
  have hmap : (vs.view.saveAccountInfo (.ofPosition nHeight nIndex) (pk.getKeyID node.cr)
      b).keyIds.lookup (.ofPosition nHeight nIndex) = some (pk.getKeyID node.cr) := by
    rw [CAccountViewCache.saveAccountInfo, CAccountViewCache.setAccountKey_keyIds,
      CAccountViewCache.setKeyId_keyIds, Store.lookup_put_self, CAccountViewCache.liveKey_of_ne hk0]
  have hacct : (vs.view.saveAccountInfo (.ofPosition nHeight nIndex) (pk.getKeyID node.cr)
      b).accounts.lookup (pk.getKeyID node.cr) = some b := by
    rw [CAccountViewCache.saveAccountInfo, CAccountViewCache.setAccountKey_accounts,
      Store.lookup_put_self, CAccountViewCache.liveAccount_of_ne hlive]
  have hundo : tx.undoFee (pk.getKeyID node.cr) undo b
      = .ok (registered pk m (.ofPosition nHeight nIndex) a) := by
    rw [undoFee_of_log hlog, ← hold]
    by_cases hpos : 0 < tx.llFees
    · rw [if_pos hpos, if_pos (hfee hpos), if_pos hpos]
    · rw [if_neg hpos, if_neg hpos]
  rw [undoExecuteTx_of_lookup hmap hacct, hundo, Except.ok_bind]
  have hempty : (registered pk m (.ofPosition nHeight nIndex) a).isEmptyValue = true
      ↔ a.ullValues = 0 := CAccount.isEmptyValue_iff _
  rw [hpk]
  refine congrArg (fun w => Except.ok (Views.mk w s)) ?_
  by_cases h0 : a.ullValues = 0
  · rw [if_neg (by simpa using hempty.mpr h0), if_pos h0]
    refine CAccountViewCache.ext_maps ?_ ?_ rfl
    · simp [CAccountViewCache.eraseAccount, CAccountViewCache.saveAccountInfo, Store.put_put]
    · simp [CAccountViewCache.eraseAccount, CAccountViewCache.saveAccountInfo, Store.put_put]
  · rw [if_pos (by simpa using fun h => h0 (hempty.mp h)), if_neg h0]
    refine CAccountViewCache.ext_maps ?_ ?_ rfl
    · simp [CAccountViewCache.saveAccountInfo, Store.put_put, registered]
    · simp [CAccountViewCache.saveAccountInfo, Store.put_put]

/-- Whether that view is the one before. -/
theorem restored_view_iff (ha : vs.view.accounts.lookup (pk.getKeyID node.cr) = some a) :
    (if a.ullValues = 0 then
        (vs.view.eraseAccountKey (pk.getKeyID node.cr)).eraseKeyId (.ofPosition nHeight nIndex)
      else (vs.view.setAccountKey (pk.getKeyID node.cr)
        (registered CPubKey.invalid CPubKey.invalid (.ofPosition nHeight nIndex) a)).eraseKeyId
          (.ofPosition nHeight nIndex)) = vs.view ↔
      (a.ullValues ≠ 0 ∧ a.cPublicKey = CPubKey.invalid ∧ a.cMinerPKey = CPubKey.invalid ∧
        a.cRegID = CRegID.ofPosition nHeight nIndex) ∧
      vs.view.keyIds.lookup (.ofPosition nHeight nIndex) = none := by
  have hlive := vs.view.live _ a ha
  constructor
  · intro heq
    have hmap := congrArg (fun w => w.keyIds.lookup (CRegID.ofPosition nHeight nIndex)) heq
    have hacct := congrArg (fun w => w.accounts.lookup (pk.getKeyID node.cr)) heq
    by_cases h0 : a.ullValues = 0
    · -- the account is gone
      rw [if_pos h0] at hacct
      simp [ha] at hacct
    · rw [if_neg h0] at hmap hacct
      have hlive' : (registered CPubKey.invalid CPubKey.invalid
          (CRegID.ofPosition nHeight nIndex) a).cKeyID ≠ 0 := hlive
      simp only [CAccountViewCache.eraseKeyId_accounts, CAccountViewCache.setAccountKey_accounts,
        Store.lookup_put_self, CAccountViewCache.liveAccount_of_ne hlive', ha,
        Option.some.injEq] at hacct
      simp only [CAccountViewCache.eraseKeyId_keyIds, Store.lookup_put_self] at hmap
      refine ⟨⟨h0, ?_, ?_, ?_⟩, hmap.symm⟩
      · rw [← hacct]
        rfl
      · rw [← hacct]
        rfl
      · rw [← hacct]
        rfl
  · rintro ⟨⟨h0, hpub, hminer, hreg⟩, hmap⟩
    have hsame : registered CPubKey.invalid CPubKey.invalid (.ofPosition nHeight nIndex) a = a := by
      unfold registered
      rw [← hpub, ← hreg]
      cases a
      simp_all
    rw [if_neg h0, hsame]
    refine CAccountViewCache.ext_maps ?_ ?_ rfl
    · rw [CAccountViewCache.eraseKeyId_accounts, CAccountViewCache.setAccountKey_accounts,
        CAccountViewCache.liveAccount_of_ne hlive, ← ha, Store.put_lookup]
    · rw [CAccountViewCache.eraseKeyId_keyIds, CAccountViewCache.setAccountKey_keyIds, ← hmap,
        Store.put_lookup]

end

/-- The undo of a registration restores the views exactly when they satisfied `UndoRestores`. -/
theorem undo_executeTx_iff (node : Node) (tx : CRegisterAccountTx) (nIndex nHeight : ℤ)
    (vs : Views) (out : Executed) (hexec : tx.executeTx node nIndex nHeight vs = .ok out) :
    tx.undoExecuteTx node nIndex nHeight out.views out.undo = .ok vs ↔
      UndoRestores node tx nIndex nHeight vs := by
  obtain ⟨pk, a, b, hpk, ha, hb, hview, haddr, hlog⟩ := executeTx_cases hexec
  obtain ⟨hkey, -, m, hold⟩ := registerAccount_cases hb
  have hs := writeAddressIndex_pubKey haddr
  have hlive : b.cKeyID ≠ 0 := by
    rw [hkey]
    exact vs.view.live _ a ha
  have hout : out.views = ⟨vs.view.saveAccountInfo (.ofPosition nHeight nIndex)
      (pk.getKeyID node.cr) b, out.views.scriptDB⟩ := by
    rw [← hview]
  -- the script database is what execution left
  have hscript : out.views.scriptDB = vs.scriptDB ↔ (node.cfg.bAddressToTx = true →
      vs.scriptDB.getData (addressKey (pk.getKeyID node.cr) nHeight nIndex)
        = some (getHex ((CBaseTransaction.registerAccount tx).getHash node.cr.Hash))) := by
    rw [hs]
    by_cases hon : node.cfg.bAddressToTx = true
    · rw [if_pos hon, CScriptDBViewCache.setData_eq_self_iff,
        CScriptDBViewCache.liveValue_of_ne (getHex_ne_nil _)]
      exact ⟨fun h _ => h, fun h => h hon⟩
    · rw [if_neg hon]
      exact iff_of_true rfl fun h => absurd h hon
  rw [hout]
  constructor
  · intro hundo
    have hk0 : pk.getKeyID node.cr ≠ 0 := by
      intro h0
      -- the id was mapped to the null key, so the undo finds no account
      have hnone : (vs.view.saveAccountInfo (.ofPosition nHeight nIndex) (pk.getKeyID node.cr)
          b).getAccountReg (.ofPosition nHeight nIndex) = none := by
        simp [CAccountViewCache.getAccountReg, CAccountViewCache.saveAccountInfo,
          CAccountViewCache.liveKey, h0]
      unfold undoExecuteTx at hundo
      dsimp only at hundo
      rw [hnone] at hundo
      cases hundo
    have hfee : 0 < tx.llFees → a.cKeyID = pk.getKeyID node.cr := by
      intro hpos
      by_contra hne
      have hmap : (vs.view.saveAccountInfo (.ofPosition nHeight nIndex) (pk.getKeyID node.cr)
          b).keyIds.lookup (.ofPosition nHeight nIndex) = some (pk.getKeyID node.cr) := by
        simp [CAccountViewCache.saveAccountInfo, CAccountViewCache.liveKey_of_ne hk0]
      have hacct : (vs.view.saveAccountInfo (.ofPosition nHeight nIndex) (pk.getKeyID node.cr)
          b).accounts.lookup (pk.getKeyID node.cr) = some b := by
        simp [CAccountViewCache.saveAccountInfo, CAccountViewCache.liveAccount_of_ne hlive]
      rw [undoExecuteTx_of_lookup hmap hacct, undoFee_of_log hlog, if_pos hpos, if_neg hne] at hundo
      cases hundo
    rw [undo_saveAccountInfo hpk hlive hk0 hlog hold hfee] at hundo
    have hviews := Except.ok.inj hundo
    have hsame := congrArg Views.scriptDB hviews
    have hrest := (restored_view_iff ha).mp (congrArg Views.view hviews)
    exact ⟨pk, a, hpk, ha, ⟨hk0, hfee⟩, hrest.1, hrest.2, hscript.mp hsame⟩
  · rintro ⟨pk', a', hpk', ha', ⟨hk0, hfee⟩, hacct, hmap, haddr⟩
    obtain rfl : pk = pk' := by
      rw [hpk] at hpk'
      exact CUserID.pubKey.inj hpk'
    obtain rfl : a = a' := Option.some.inj (ha.symm.trans ha')
    rw [undo_saveAccountInfo hpk hlive hk0 hlog hold hfee]
    rw [(restored_view_iff ha).mpr ⟨hacct, hmap⟩, hscript.mpr haddr]

/-! ## Two registrations of the sample node -/

/-- Registers the sample key 5 for a fee of 10000. -/
def sampleTx : CRegisterAccountTx where
  nVersion := 2
  nValidHeight := 100
  cUserId := .pubKey (Sample.pubKey 5)
  cMinerId := .null
  llFees := 10000
  vchSignature := []

/-- One account with a balance and the given reg id, which is mapped to nothing. -/
def sampleViews (r : CRegID) : Views where
  view := Sample.viewOf
    [{ CAccount.fresh (Sample.keyId 5) with cRegID := r, ullValues := 1000000 }] [] 0
  scriptDB := Sample.scriptsOf []

/-- The account had no reg id before the registration and has one after its undo. -/
theorem undo_keeps_cRegID : ∃ out ws,
    sampleTx.executeTx Sample.node 1 100 (sampleViews CRegID.null) = .ok out ∧
    sampleTx.undoExecuteTx Sample.node 1 100 out.views out.undo = .ok ws ∧
    (sampleViews CRegID.null).view.getRegId Sample.crypto (.keyID (Sample.keyId 5)) = none ∧
    ws.view.getRegId Sample.crypto (.keyID (Sample.keyId 5)) = some ⟨100, 1⟩ :=
  ⟨_, _, rfl, rfl, by decide, by decide⟩

/-- The state an earlier undo of the same registration left is restored. -/
theorem undo_executeTx_iff_again : ∃ out,
    sampleTx.executeTx Sample.node 1 100 (sampleViews ⟨100, 1⟩) = .ok out ∧
    sampleTx.undoExecuteTx Sample.node 1 100 out.views out.undo = .ok (sampleViews ⟨100, 1⟩) :=
  ⟨_, rfl, (undo_executeTx_iff Sample.node sampleTx 1 100 (sampleViews ⟨100, 1⟩) _ rfl).mpr
    ⟨Sample.pubKey 5, _, rfl, rfl, ⟨by decide, fun _ => by decide⟩,
      ⟨by decide, by decide, by decide, by decide⟩, by decide, fun h => nomatch h⟩⟩

end CRegisterAccountTx

end Dacrs
