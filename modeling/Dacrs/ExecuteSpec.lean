import Dacrs.Execute

/-!
# What a successful execution has done

One inversion lemma per `ExecuteTx`.  Later modules reason from these and never unfold an
execution again.
-/

open Codec (Bytes)

namespace Dacrs

/-! ## Balances -/

namespace CAccount

variable (cfg : SysCfg) {value : UInt64} {h : ℤ} {a b : CAccount}

/-- Money taken was there. -/
theorem operateAccount_minus (hop : a.operateAccount cfg .minusFree value h = some b) :
    b.ullValues.toNat + value.toNat = a.ullValues.toNat := by
  obtain ⟨-, -, -, hcase⟩ := operateAccount_cases cfg hop
  rcases hcase with ⟨h0, hval⟩ | ⟨htype, -⟩ | ⟨-, hle, hval⟩
  · rw [h0, hval]
    rfl
  · cases htype
  · rw [hval, UInt64.toNat_sub_of_le _ _ hle]
    have := UInt64.le_iff_toNat_le.mp hle
    omega

/-- An amount in range is at most the most money there can be. -/
theorem toNat_le_of_isMoneyOverflow (hv : isMoneyOverflow cfg value = true) :
    value.toNat ≤ 2 * 10 ^ 18 := by
  unfold isMoneyOverflow SysCfg.moneyRange at hv
  simp only [Bool.and_eq_true, decide_eq_true_eq] at hv
  obtain ⟨h0, h1⟩ := hv
  have hmax : cfg.getMaxMoney ≤ 2 * 10 ^ 18 := by
    unfold SysCfg.getMaxMoney coin
    split <;> norm_num
  have hint : value.toInt64.toInt = value.toBitVec.toInt := rfl
  rw [hint, BitVec.toInt_eq_toNat_cond] at h0 h1
  have hlt := value.toNat_lt
  have hnat : value.toBitVec.toNat = value.toNat := rfl
  rw [hnat] at h0 h1
  split at h0 <;> split at h1 <;> omega

/-- Money added to a balance below 2^63 does not wrap. -/
theorem operateAccount_add (hop : a.operateAccount cfg .addFree value h = some b)
    (hbelow : a.ullValues.toNat < 2 ^ 63) :
    b.ullValues.toNat = a.ullValues.toNat + value.toNat := by
  obtain ⟨hrange, -, -, hcase⟩ := operateAccount_cases cfg hop
  have hsmall := toNat_le_of_isMoneyOverflow cfg hrange
  rcases hcase with ⟨h0, hval⟩ | ⟨-, hval, -⟩ | ⟨htype, -⟩
  · rw [h0, hval]
    rfl
  · rw [hval, UInt64.toNat_add]
    omega
  · cases htype

theorem operateAccount_sameIdentity {type : EmOperType}
    (hop : a.operateAccount cfg type value h = some b) : b.SameIdentity a :=
  (operateAccount_cases cfg hop).2.2.1

theorem operateAccount_key_ne {type : EmOperType}
    (hop : a.operateAccount cfg type value h = some b) : a.cKeyID ≠ 0 :=
  (operateAccount_cases cfg hop).2.1

end CAccount

/-! ## The address index -/

/-- With the index switched off nothing is written. -/
theorem writeAddressIndex_of_off {node : Node} (hoff : node.cfg.bAddressToTx = false) {vs : Views}
    {ids : List CUserID} {nHeight nIndex : ℤ} {hash : Uint256} {s : CScriptDBViewCache}
    {logs : List CScriptDBOperLog}
    (h : writeAddressIndex node vs ids nHeight nIndex hash = .ok (s, logs)) :
    s = vs.scriptDB ∧ logs = [] := by
  unfold writeAddressIndex at h
  rw [if_neg (by simp [hoff])] at h
  exact (Prod.mk.inj (Except.ok.inj h)).imp Eq.symm Eq.symm

theorem fails_withRegID {α : Type} {id : CUserID} {f : CRegID → Exec α}
    (hf : ∀ r, Exec.Fails (f r)) : Exec.Fails (Exec.withRegID id f) := by
  unfold Exec.withRegID
  split
  · exact hf _
  · exact Exec.fails_throw _

theorem fails_updateFail {α : Type} (reason : String) :
    Exec.Fails (Exec.updateFail reason : Exec α) := Exec.fails_error _

/-! ## CRegisterAccountTx -/

namespace CRegisterAccountTx

variable {node : Node} {tx : CRegisterAccountTx} {nIndex nHeight : ℤ} {vs : Views}

/-- The old account under its new registration, the balance apart. -/
def registered (pk m : CPubKey) (cRegId : CRegID) (a : CAccount) : CAccount :=
  { a with cPublicKey := pk, cRegID := cRegId, cMinerPKey := m }

/-- A positive fee leaves the balance. -/
theorem payFee_cases {a b : CAccount} (h : tx.payFee node nHeight a = .ok b) :
    b.SameIdentity a ∧
      b.ullValues.toNat + (if 0 < tx.llFees then tx.llFees.toUInt64.toNat else 0)
        = a.ullValues.toNat ∧
      (¬ 0 < tx.llFees → b = a) := by
  unfold payFee at h
  split at h
  · next hpos =>
    rw [Exec.ofOption_eq_ok (fails_updateFail _)] at h
    rw [if_pos hpos]
    exact ⟨CAccount.operateAccount_sameIdentity node.cfg h, CAccount.operateAccount_minus node.cfg h,
      fun hn => absurd hpos hn⟩
  · next hpos =>
    obtain rfl := Except.ok.inj h
    rw [if_neg hpos]
    exact ⟨.refl a, rfl, fun _ => rfl⟩

/-- The registration keeps the key id, takes the fee, and the log of the old account turns the
rest of it back. -/
theorem registerAccount_cases {pk : CPubKey} {cRegId : CRegID} {a b : CAccount}
    (h : tx.registerAccount node pk cRegId nHeight a = .ok b) :
    b.cKeyID = a.cKeyID ∧
      b.ullValues.toNat + (if 0 < tx.llFees then tx.llFees.toUInt64.toNat else 0)
        = a.ullValues.toNat ∧
      ∃ m, (if 0 < tx.llFees then b.undoOperateAccount (.ofAccount a) else b)
        = registered pk m cRegId a := by
  unfold registerAccount at h
  rw [Except.bind_eq_ok] at h
  obtain ⟨c, hfee, hminer⟩ := h
  obtain ⟨hid, hval, hnofee⟩ := payFee_cases hfee
  -- the miner key: the old one or the one given
  have hb : ∃ m, b = { c with cRegID := cRegId, cMinerPKey := m } := by
    unfold setMinerKey at hminer
    split at hminer
    · next m _ =>
      split at hminer
      · cases hminer
      · exact ⟨m, (Except.ok.inj hminer).symm⟩
    · exact ⟨c.cMinerPKey, (Except.ok.inj hminer).symm⟩
  obtain ⟨m, rfl⟩ := hb
  refine ⟨hid.cKeyID, hval, m, ?_⟩
  split
  · simp only [CAccount.undoOperateAccount, CAccountLog.ofAccount, registered, hid.cKeyID,
      hid.cPublicKey]
  · next hn =>
    rw [hnofee hn]
    rfl

/-- Everything a successful registration can have done. -/
theorem executeTx_cases {out : Executed} (h : tx.executeTx node nIndex nHeight vs = .ok out) :
    ∃ pk a b, tx.cUserId = .pubKey pk ∧
      vs.view.accounts.lookup (pk.getKeyID node.cr) = some a ∧
      tx.registerAccount node pk (.ofPosition nHeight nIndex) nHeight a = .ok b ∧
      out.views.view
        = vs.view.saveAccountInfo (.ofPosition nHeight nIndex) (pk.getKeyID node.cr) b ∧
      writeAddressIndex node ⟨out.views.view, vs.scriptDB⟩ [.pubKey pk] nHeight nIndex
          ((CBaseTransaction.registerAccount tx).getHash node.cr.Hash)
        = .ok (out.views.scriptDB, out.undo.vcScriptOperLog) ∧
      out.undo.vcAccountLog = [CAccountLog.ofAccount a] := by
  unfold executeTx at h
  split at h
  · next pk hpk =>
    dsimp only at h
    rw [Except.bind_eq_ok] at h
    obtain ⟨a, ha, h⟩ := h
    rw [Except.bind_eq_ok] at h
    obtain ⟨-, -, h⟩ := h
    rw [Except.bind_eq_ok] at h
    obtain ⟨b, hb, h⟩ := h
    rw [Except.bind_eq_ok] at h
    obtain ⟨⟨s, logs⟩, haddr, h⟩ := h
    obtain rfl := Except.ok.inj h
    rw [hpk] at ha haddr
    rw [Exec.ofOption_eq_ok (fails_updateFail _)] at ha
    exact ⟨pk, a, b, hpk, ha, hb, rfl, haddr, rfl⟩
  · cases h

end CRegisterAccountTx

/-! ## CRegisterAppTx -/

namespace CRegisterAppTx

variable {node : Node} {tx : CRegisterAppTx} {nIndex nHeight : ℤ} {vs : Views}

/-- The fee leaves the registrant, and there is a log of it exactly when there is a fee. -/
theorem payFee_cases {a b : CAccount} {logs : List CAccountLog}
    (h : tx.payFee node nHeight a = .ok (b, logs)) :
    b.SameIdentity a ∧ b.ullValues.toNat + tx.ullFees.toNat = a.ullValues.toNat ∧
      ((logs = [] ∧ b = a) ∨ logs = [.ofAccount a]) := by
  unfold payFee at h
  split at h
  · rw [Except.bind_eq_ok] at h
    obtain ⟨c, hc, h⟩ := h
    obtain ⟨rfl, rfl⟩ := Prod.mk.inj (Except.ok.inj h)
    rw [Exec.ofOption_eq_ok (fails_withRegID fun _ => fails_updateFail _)] at hc
    exact ⟨CAccount.operateAccount_sameIdentity node.cfg hc,
      CAccount.operateAccount_minus node.cfg hc, .inr rfl⟩
  · next hfee =>
    obtain ⟨rfl, rfl⟩ := Prod.mk.inj (Except.ok.inj h)
    have h0 : tx.ullFees = 0 := by
      by_contra hne
      exact hfee (UInt64.pos_iff_ne_zero.mpr hne)
    refine ⟨.refl a, ?_, .inl ⟨rfl, rfl⟩⟩
    rw [h0]
    rfl

/-- A script that parses is not empty. -/
theorem checkScript_ne_nil {u : Unit} (h : tx.checkScript node nHeight = .ok u) :
    tx.vchScript ≠ [] := by
  intro hnil
  unfold checkScript at h
  have hparse : CVmScript.unserialize tx.vchScript = none := by
    rw [hnil]
    rfl
  rw [hparse] at h
  cases h

/-- Everything a successful registration of a contract can have done. -/
theorem executeTx_cases {out : Executed} (h : tx.executeTx node nIndex nHeight vs = .ok out) :
    ∃ a b logs s, vs.view.getAccount node.cr tx.cRegAcctId = some a ∧
      tx.payFee node nHeight a = .ok (b, logs) ∧ tx.vchScript ≠ [] ∧
      vs.scriptDB.setScript (CRegID.ofPosition nHeight nIndex).getVec6 tx.vchScript = .ok s ∧
      out.views.view = (vs.view.saveAccountInfo (.ofPosition nHeight nIndex)
        (contractKeyId node.cr (.ofPosition nHeight nIndex))
        (contractAccount node.cr (.ofPosition nHeight nIndex))).setAccountKey b.cKeyID b ∧
      out.undo.vcAccountLog = logs ∧ out.ullRunStep = UInt64.ofNat tx.vchScript.length ∧
      writeAddressIndex node ⟨out.views.view, s⟩ [tx.cRegAcctId] nHeight nIndex
          ((CBaseTransaction.registerApp tx).getHash node.cr.Hash)
        = .ok (out.views.scriptDB, out.undo.vcScriptOperLog) := by
  unfold executeTx at h
  rw [Except.bind_eq_ok] at h
  obtain ⟨a, ha, h⟩ := h
  rw [Except.bind_eq_ok] at h
  obtain ⟨⟨b, logs⟩, hpay, h⟩ := h
  dsimp only at h
  rw [Except.bind_eq_ok] at h
  obtain ⟨u, hcheck, h⟩ := h
  rw [Except.bind_eq_ok] at h
  obtain ⟨s, hs, h⟩ := h
  rw [Except.bind_eq_ok] at h
  obtain ⟨⟨s', addrLogs⟩, haddr, h⟩ := h
  dsimp only at h
  rw [Except.bind_eq_ok] at h
  obtain ⟨-, -, h⟩ := h
  obtain rfl := Except.ok.inj h
  rw [Exec.ofOption_eq_ok (fails_updateFail _)] at ha
  rw [Exec.onFalse_eq_ok] at hs
  exact ⟨a, b, logs, s, ha, hpay, checkScript_ne_nil hcheck, hs, rfl, rfl, rfl, haddr⟩

end CRegisterAppTx

/-! ## CTransaction -/

namespace CTransaction

variable {node : Node} {tx : CTransaction} {nIndex nHeight : ℤ} {nFuelRate : Int32}

/-- Where the destination account came from. -/
theorem desAccount_cases {view : CAccountViewCache} {d : CAccount} {log : CAccountLog}
    (h : tx.desAccount node view = .ok (d, log)) :
    (view.getAccount node.cr tx.cDesUserId = some d ∧ log = .ofAccount d) ∨
    (tx.chTxType = .common ∧ ∃ k, tx.cDesUserId = .keyID k ∧ view.accounts.lookup k = none ∧
      d = CAccount.fresh k ∧ log = .ofKeyID k) := by
  unfold desAccount at h
  split at h
  · next d' hd =>
    obtain ⟨rfl, rfl⟩ := Prod.mk.inj (Except.ok.inj h)
    exact .inl ⟨hd, rfl⟩
  · next hnone =>
    split at h
    · next k htype hdes =>
      obtain ⟨rfl, rfl⟩ := Prod.mk.inj (Except.ok.inj h)
      rw [hdes] at hnone
      exact .inr ⟨htype, k, hdes, hnone, rfl, rfl⟩
    · exact absurd h (fails_withRegID (fun _ => fails_updateFail _) _)

/-- Everything a successful transfer can have done. -/
theorem transfer_cases {view view' : CAccountViewCache} {logs : List CAccountLog}
    (h : tx.transfer node nHeight view = .ok (view', logs)) :
    ∃ a s d d' dlog, view.getAccount node.cr tx.cSrcRegId = some a ∧
      a.operateAccount node.cfg .minusFree (tx.ullFees + tx.ullValues) nHeight = some s ∧
      tx.desAccount node (view.setAccountKey s.cKeyID s) = .ok (d, dlog) ∧
      d.operateAccount node.cfg .addFree tx.ullValues nHeight = some d' ∧
      (view.setAccountKey s.cKeyID s).setAccount node.cr tx.cDesUserId d' = some view' ∧
      logs = [.ofAccount a, dlog] := by
  unfold transfer at h
  dsimp only at h
  rw [Except.bind_eq_ok] at h
  obtain ⟨a, ha, h⟩ := h
  rw [Except.bind_eq_ok] at h
  obtain ⟨s, hs, h⟩ := h
  rw [Except.bind_eq_ok] at h
  obtain ⟨⟨d, dlog⟩, hd, h⟩ := h
  dsimp only at h
  rw [Except.bind_eq_ok] at h
  obtain ⟨d', hd', h⟩ := h
  rw [Except.bind_eq_ok] at h
  obtain ⟨w, hw, h⟩ := h
  obtain ⟨rfl, rfl⟩ := Prod.mk.inj (Except.ok.inj h)
  rw [Exec.ofOption_eq_ok (fails_withRegID fun _ => fails_updateFail _)] at ha
  rw [Exec.ofOption_eq_ok (fails_updateFail _)] at hs hd' hw
  exact ⟨a, s, d, d', dlog, ha, hs, hd, hd', hw, rfl⟩

/-- The two writes of a transfer in a well-keyed view: the source under its own key id, then the
destination, read after the first write. -/
structure Transferred (node : Node) (tx : CTransaction) (nHeight : ℤ) (view : CAccountViewCache)
    (a s : CAccount) (k : CKeyID) (d' : CAccount) : Prop where
  source : view.getAccount node.cr tx.cSrcRegId = some a
  stored : view.accounts.lookup a.cKeyID = some a
  minus : a.operateAccount node.cfg .minusFree (tx.ullFees + tx.ullValues) nHeight = some s
  key : s.cKeyID = a.cKeyID
  dest : view.getKeyId node.cr tx.cDesUserId = some k
  created : (view.setAccountKey a.cKeyID s).accounts.lookup k = none → tx.chTxType = .common
  add : (((view.setAccountKey a.cKeyID s).accounts.lookup k).getD (CAccount.fresh k)).operateAccount
    node.cfg .addFree tx.ullValues nHeight = some d'
  desKey : d'.cKeyID = k

theorem transfer_wellKeyed {view view' : CAccountViewCache} {logs : List CAccountLog}
    (hv : view.WellKeyed) (h : tx.transfer node nHeight view = .ok (view', logs)) :
    ∃ a s k d', tx.Transferred node nHeight view a s k d' ∧
      view' = (view.setAccountKey a.cKeyID s).setAccountKey k d' ∧
      logs = [.ofAccount a, .ofAccount (((view.setAccountKey a.cKeyID s).accounts.lookup k).getD
        (CAccount.fresh k))] := by
  obtain ⟨a, s, d, d', dlog, ha, hs, hd, hadd, hset, rfl⟩ := transfer_cases h
  have hkey : s.cKeyID = a.cKeyID := (CAccount.operateAccount_sameIdentity node.cfg hs).cKeyID
  have hstored := hv.getAccount node.cr ha
  have hv₁ : (view.setAccountKey a.cKeyID s).WellKeyed := by
    rw [← hkey]
    exact hv.setAccountKey s
  have hid := CAccount.operateAccount_sameIdentity node.cfg hadd
  rw [hkey] at hd hset
  rcases desAccount_cases hd with ⟨hget, rfl⟩ | ⟨htype, k, hdes, hnone, rfl, rfl⟩
  · obtain ⟨k, hk, hlook⟩ := (CAccountViewCache.getAccount_eq_some_iff _ node.cr _ d).mp hget
    have hdk : d.cKeyID = k := hv₁ k d hlook
    refine ⟨a, s, k, d', ⟨ha, hstored, hs, hkey, hk, ?_, ?_, hid.cKeyID.trans hdk⟩, ?_, ?_⟩
    · intro hnone
      rw [hnone] at hlook
      cases hlook
    · rw [hlook]
      exact hadd
    · have hw := CAccountViewCache.setAccount_of_getKeyId _ node.cr hk d'
      rw [hset] at hw
      exact Option.some.inj hw
    · rw [hlook]
      rfl
  · have hk : view.getKeyId node.cr tx.cDesUserId = some k := by
      rw [hdes]
      rfl
    refine ⟨a, s, k, d', ⟨ha, hstored, hs, hkey, hk, fun _ => htype, ?_, hid.cKeyID⟩, ?_, ?_⟩
    · rw [hnone]
      exact hadd
    · rw [hdes] at hset
      exact (Option.some.inj hset).symm
    · rw [hnone]
      rfl

/-- Everything a successful contract call can have done after the transfer. -/
theorem executeContract_cases {vs vs' : Views} {alogs : List CAccountLog}
    {dblog : List CScriptDBOperLog} {step : UInt64}
    (h : tx.executeContract node nHeight nFuelRate vs = .ok (vs', alogs, dblog, step)) :
    ∃ des out view' rel, tx.cDesUserId = .regID des ∧
      CVmRunEvn.run node tx des vs.view vs.scriptDB nHeight (int32ToUInt64 (getFuelRate node
        vs.scriptDB ((CBaseTransaction.transaction tx).getHash node.cr.Hash) nFuelRate)) = .ok out ∧
      out.accounts.newAccont.foldlM (saveContractAccount out.accounts) (vs.view, [])
        = .ok (view', alogs) ∧
      rel ≠ [] ∧
      vs' = ⟨view', out.scriptDB.setTxRelAccout
        ((CBaseTransaction.transaction tx).getHash node.cr.Hash) rel⟩ ∧
      dblog = out.dblog ∧ step = out.ullRunStep := by
  unfold executeContract Exec.withRegID at h
  split at h
  · next des hdes =>
    rw [Except.bind_eq_ok] at h
    obtain ⟨-, -, h⟩ := h
    rw [Except.bind_eq_ok] at h
    obtain ⟨-, -, h⟩ := h
    dsimp only at h
    rw [Except.bind_eq_ok] at h
    obtain ⟨out, hout, h⟩ := h
    rw [Except.bind_eq_ok] at h
    obtain ⟨⟨view', logs⟩, hsave, h⟩ := h
    have hinj := Except.ok.inj h
    simp only [Prod.mk.injEq] at hinj
    obtain ⟨rfl, rfl, rfl, rfl⟩ := hinj
    rw [Exec.onFalse_eq_ok] at hout
    refine ⟨des, out, view', _, hdes, hout, hsave, ?_, rfl, rfl, rfl⟩
    -- a serialized set starts with its size
    unfold relAccountBytes
    intro hnil
    have := (List.append_eq_nil_iff.mp hnil).1
    exact Codec.writeCompactSize_ne_nil _ this
  · cases h

/-- The parts of a successful execution. -/
theorem executeTx_cases {vs : Views} {out : Executed}
    (h : tx.executeTx node nIndex nHeight nFuelRate vs = .ok out) :
    ∃ view logs vs' clogs dblog alogs, tx.transfer node nHeight vs.view = .ok (view, logs) ∧
      tx.executeByType node nHeight nFuelRate ⟨view, vs.scriptDB⟩
        = .ok (vs', clogs, dblog, out.ullRunStep) ∧
      out.views.view = vs'.view ∧ out.undo.vcAccountLog = logs ++ clogs ∧
      writeAddressIndex node vs' [tx.cSrcRegId, tx.cDesUserId] nHeight nIndex
          ((CBaseTransaction.transaction tx).getHash node.cr.Hash)
        = .ok (out.views.scriptDB, alogs) ∧
      out.undo.vcScriptOperLog = dblog ++ alogs := by
  unfold executeTx at h
  rw [Except.bind_eq_ok] at h
  obtain ⟨⟨view, logs⟩, htrans, h⟩ := h
  dsimp only at h
  rw [Except.bind_eq_ok] at h
  obtain ⟨⟨vs', clogs, dblog, step⟩, htype, h⟩ := h
  dsimp only at h
  rw [Except.bind_eq_ok] at h
  obtain ⟨⟨s, alogs⟩, haddr, h⟩ := h
  obtain rfl := Except.ok.inj h
  exact ⟨view, logs, vs', clogs, dblog, alogs, htrans, htype, rfl, rfl, haddr, rfl⟩

end CTransaction

/-! ## CRewardTransaction -/

namespace CRewardTransaction

variable {node : Node} {tx : CRewardTransaction} {nIndex nHeight : ℤ} {vs : Views}

theorem operateReward_sameIdentity {a b : CAccount}
    (h : tx.operateReward node nIndex nHeight a = .ok b) : b.SameIdentity a := by
  unfold operateReward at h
  split at h
  · obtain rfl := Except.ok.inj h
    have hid := CAccount.upDateCoinDay_sameIdentity node.cfg a nHeight
    exact ⟨hid.cRegID, hid.cKeyID, hid.cPublicKey, hid.cMinerPKey⟩
  · split at h
    · obtain rfl := Except.ok.inj h
      exact ⟨rfl, rfl, rfl, rfl⟩
    · cases h

/-- Everything a successful reward transaction can have done. -/
theorem executeTx_cases {out : Executed} (h : tx.executeTx node nIndex nHeight vs = .ok out) :
    ∃ r a b, tx.cAccount = .regID r ∧ vs.view.getAccountReg r = some a ∧
      tx.operateReward node nIndex nHeight a = .ok b ∧
      out.views.view = vs.view.setAccountKey b.cKeyID b ∧
      out.undo.vcAccountLog = [.ofAccount a] ∧
      tx.indexReward node nIndex nHeight ⟨out.views.view, vs.scriptDB⟩
          ((CBaseTransaction.reward tx).getHash node.cr.Hash)
        = .ok (out.views.scriptDB, out.undo.vcScriptOperLog) := by
  unfold executeTx at h
  split at h
  · next r hr =>
    rw [Except.bind_eq_ok] at h
    obtain ⟨a, ha, h⟩ := h
    rw [Except.bind_eq_ok] at h
    obtain ⟨b, hb, h⟩ := h
    dsimp only at h
    rw [Except.bind_eq_ok] at h
    obtain ⟨⟨s, logs⟩, hlogs, h⟩ := h
    obtain rfl := Except.ok.inj h
    rw [Exec.ofOption_eq_ok (fails_updateFail _)] at ha
    exact ⟨r, a, b, hr, ha, hb, rfl, rfl, hlogs⟩
  · cases h

end CRewardTransaction

end Dacrs
