import Dacrs.Faults
import Dacrs.SampleChain

/-!
# Executing checked transactions

`checked_sound_iff` says when a transaction that passed its check executes without a fault: the check
lets a call by a key id through, and nothing compares the length of a contract's code with what is read
of it.
-/

open Codec (Bytes)

namespace Dacrs

open Except (avoids_ok avoids_error)

/-! ## The classes without contract code -/

theorem CRewardTransaction.executeTx_sound (node : Node) (tx : CRewardTransaction) (nIndex nHeight : ℤ)
    (vs : Views) : (tx.executeTx node nIndex nHeight vs).Sound := by
  unfold executeTx
  split
  · refine Exec.sound_bind.mpr ⟨Exec.sound_ofOption.mpr fun _ => Exec.sound_updateFail _, fun a _ => ?_⟩
    refine Exec.sound_bind.mpr ⟨?_, fun b _ => ?_⟩
    · unfold operateReward
      split
      · exact avoids_ok _
      · split
        · exact avoids_ok _
        · exact Exec.sound_returnFalse
    · refine Exec.sound_bind.mpr ⟨?_, fun _ _ => avoids_ok _⟩
      unfold indexReward
      split
      · exact (writeAddressIndex_plain _ _ _ _ _ _).sound
      · exact avoids_ok _
  · exact Exec.sound_updateFail _

theorem CRegisterAccountTx.executeTx_sound {node : Node} {tx : CRegisterAccountTx} {pk : CPubKey}
    (hpk : tx.cUserId = .pubKey pk) (nIndex nHeight : ℤ) (vs : Views) :
    (tx.executeTx node nIndex nHeight vs).Sound := by
  unfold executeTx
  rw [hpk]
  refine Exec.sound_bind.mpr ⟨Exec.sound_ofOption.mpr fun _ => Exec.sound_updateFail _, fun a _ => ?_⟩
  refine Exec.sound_bind.mpr ⟨Exec.sound_require (Exec.sound_updateFail _), fun _ _ => ?_⟩
  refine Exec.sound_bind.mpr ⟨Exec.sound_bind.mpr ⟨?_, fun b _ => ?_⟩, fun _ _ => ?_⟩
  · unfold payFee
    split
    · exact Exec.sound_ofOption.mpr fun _ => Exec.sound_updateFail _
    · exact avoids_ok _
  · unfold setMinerKey
    split
    · split
      · exact Exec.sound_updateFail _
      · exact avoids_ok _
    · exact avoids_ok _
  · exact Exec.sound_bind.mpr ⟨(writeAddressIndex_plain _ _ _ _ _ _).sound, fun _ _ => avoids_ok _⟩

/-! ## Registering a contract -/

namespace CRegisterAppTx

variable {node : Node} {tx : CRegisterAppTx} {nIndex nHeight : ℤ} {vs : Views}

/-- Where the fee can be paid, the code that is registered is as long as `IsValid` takes it to be. -/
def CodeReadable (node : Node) (tx : CRegisterAppTx) (nHeight : ℤ) (vs : Views) : Prop :=
  ∀ a paid script rest, vs.view.getAccount node.cr tx.cRegAcctId = some a →
    tx.payFee node nHeight a = .ok paid → CVmScript.unserialize tx.vchScript = some (script, rest) →
    script.ReadsInside

theorem payFee_sound {r : CRegID} (hr : tx.cRegAcctId = .regID r) (a : CAccount) :
    (tx.payFee node nHeight a).Sound := by
  unfold payFee
  split
  · rw [hr]
    exact Exec.sound_bind.mpr ⟨Exec.sound_ofOption.mpr fun _ => Exec.sound_updateFail _,
      fun _ _ => avoids_ok _⟩
  · exact avoids_ok _

theorem checkScriptGuarded_sound : (tx.checkScriptGuarded node nHeight).Sound ↔
    ∀ script rest, CVmScript.unserialize tx.vchScript = some (script, rest) → script.ReadsInside := by
  unfold checkScriptGuarded
  cases hread : CVmScript.unserialize tx.vchScript with
  | none =>
    refine iff_of_true (Exec.sound_updateFail _) fun script rest h => ?_
    cases h
  | some p =>
    obtain ⟨script, rest⟩ := p
    dsimp only
    by_cases hin : script.ReadsInside
    · refine iff_of_true ?_ fun script' rest' h => ?_
      · rw [CVmScript.isValidGuarded_eq hin, Except.ok_bind]
        split
        · exact Exec.sound_updateFail _
        · exact Exec.sound_require (Exec.sound_updateFail _)
        · exact Exec.sound_require (Exec.sound_updateFail _)
      · obtain ⟨rfl, -⟩ := Prod.mk.inj (Option.some.inj h)
        exact hin
    · refine iff_of_false ?_ fun h => hin (h script rest rfl)
      rw [CVmScript.isValidGuarded_outside hin]
      exact fun h => Exec.sound_throw.mp h (.inr (.inr (.inl rfl)))

/-- The registration faults exactly when `IsValid` reads outside of the code. -/
theorem executeTxGuarded_sound {r : CRegID} (hr : tx.cRegAcctId = .regID r) :
    (tx.executeTxGuarded node nIndex nHeight vs).Sound ↔ tx.CodeReadable node nHeight vs := by
  unfold executeTxGuarded CodeReadable
  refine Exec.sound_bind.trans ?_
  constructor
  · rintro ⟨-, h⟩ a paid script rest ha hpaid hread
    have h1 := (Exec.sound_bind.mp (h a (Exec.ofOption_eq_ok (fails_updateFail _) |>.mpr ha))).2 paid hpaid
    exact checkScriptGuarded_sound.mp (Exec.sound_bind.mp h1).1 script rest hread
  · intro h
    refine ⟨Exec.sound_ofOption.mpr fun _ => Exec.sound_updateFail _, fun a ha => ?_⟩
    have ha' := (Exec.ofOption_eq_ok (fails_updateFail _)).mp ha
    refine Exec.sound_bind.mpr ⟨payFee_sound hr a, fun paid hpaid => ?_⟩
    refine Exec.sound_bind.mpr ⟨checkScriptGuarded_sound.mpr fun script rest => h a paid script rest ha' hpaid,
      fun _ _ => ?_⟩
    refine Exec.sound_bind.mpr ⟨Exec.sound_onFalse.mpr (vs.scriptDB.setScript_plain _ _).sound, fun s _ => ?_⟩
    refine Exec.sound_bind.mpr ⟨(writeAddressIndex_plain _ _ _ _ _ _).sound, fun _ _ => ?_⟩
    exact Exec.sound_bind.mpr ⟨Exec.sound_require Exec.sound_returnFalse, fun _ _ => avoids_ok _⟩

end CRegisterAppTx

/-! ## Calling a contract -/

namespace CVmRunEvn

variable {node : Node} {tx : CTransaction} {des : CRegID} {view : CAccountViewCache}
  {s : CScriptDBViewCache} {nHeight : ℤ} {ullBurnFactor : UInt64}

/-- A stored script parses and is as long as `IsValid` takes it to be. -/
def ScriptReadable (s : CScriptDBViewCache) (des : CRegID) : Prop :=
  ∀ vuchScript, s.getScript des.getVec6 = some vuchScript →
    ∃ script rest, CVmScript.unserialize vuchScript = some (script, rest) ∧ script.ReadsInside

theorem intialGuarded_sound : (intialGuarded s des tx).Sound ↔ ScriptReadable s des := by
  unfold intialGuarded ScriptReadable
  refine Exec.sound_bind.trans ?_
  constructor
  · rintro ⟨-, h⟩ bytes hbytes
    have h1 := h bytes ((Exec.ofOption_eq_ok Exec.fails_returnFalse).mpr hbytes)
    cases hread : CVmScript.unserialize bytes with
    | none =>
      rw [hread] at h1
      exact absurd (.inr (.inl rfl)) (Exec.sound_throw.mp h1)
    | some p =>
      obtain ⟨script, rest⟩ := p
      refine ⟨script, rest, rfl, ?_⟩
      by_contra hout
      rw [hread] at h1
      dsimp only at h1
      rw [CVmScript.isValidGuarded_outside hout] at h1
      exact Exec.sound_throw.mp h1 (.inr (.inr (.inl rfl)))
  · intro h
    refine ⟨Exec.sound_ofOption.mpr fun _ => Exec.sound_returnFalse, fun bytes hbytes => ?_⟩
    obtain ⟨script, rest, hread, hin⟩ := h bytes ((Exec.ofOption_eq_ok Exec.fails_returnFalse).mp hbytes)
    rw [hread]
    dsimp only
    rw [CVmScript.isValidGuarded_eq hin, Except.ok_bind]
    refine Exec.sound_bind.mpr ⟨Exec.sound_ofOption.mpr fun _ => Exec.sound_returnFalse,
      fun type htype => ?_⟩
    rw [CVmScript.isCheckAccountGuarded_eq hin ((Exec.ofOption_eq_ok Exec.fails_returnFalse).mp htype),
      Except.ok_bind]
    exact Exec.sound_bind.mpr ⟨Exec.sound_require Exec.sound_returnFalse, fun _ _ => avoids_ok _⟩

/-- A run faults exactly when it gets to the script and that cannot be read. -/
theorem runGuarded_sound : (runGuarded node tx des view s nHeight ullBurnFactor).Sound ↔
    (ullBurnFactor ≠ 0 → minTxFee < tx.ullFees → ScriptReadable s des) := by
  unfold runGuarded
  refine Exec.sound_bind.trans ⟨?_, ?_⟩
  · rintro ⟨-, h⟩ hburn hfee
    have h1 := h () ((Exec.require_eq_ok Exec.fails_returnFalse).mpr hburn)
    have h2 := (Exec.sound_bind.mp h1).2 () ((Exec.require_eq_ok Exec.fails_returnFalse).mpr hfee)
    exact intialGuarded_sound.mp (Exec.sound_bind.mp h2).1
  · intro h
    refine ⟨Exec.sound_require Exec.sound_returnFalse, fun _ hburn => ?_⟩
    refine Exec.sound_bind.mpr ⟨Exec.sound_require Exec.sound_returnFalse, fun _ hfee => ?_⟩
    have hread := h ((Exec.require_eq_ok Exec.fails_returnFalse).mp hburn)
      ((Exec.require_eq_ok Exec.fails_returnFalse).mp hfee)
    refine Exec.sound_bind.mpr ⟨intialGuarded_sound.mpr hread, fun _ _ => ?_⟩
    refine Exec.sound_bind.mpr ⟨(interpret_plain _ _).sound, fun r _ => ?_⟩
    refine Exec.sound_bind.mpr ⟨Exec.sound_require Exec.sound_returnFalse, fun _ _ => ?_⟩
    refine Exec.sound_bind.mpr ⟨(runDb_plain _ _ _).sound, fun _ _ => ?_⟩
    refine Exec.sound_bind.mpr ⟨Exec.sound_require Exec.sound_returnFalse, fun _ _ => ?_⟩
    refine Exec.sound_bind.mpr ⟨Exec.sound_ofOption.mpr fun _ => Exec.sound_returnFalse, fun _ _ => ?_⟩
    refine Exec.sound_bind.mpr ⟨Exec.sound_require Exec.sound_returnFalse, fun _ _ => ?_⟩
    refine Exec.sound_bind.mpr ⟨(opeatorAppAccount_plain _ _ _ _ _).sound, fun _ _ => ?_⟩
    exact Exec.sound_bind.mpr ⟨Exec.sound_ofOption.mpr fun _ => Exec.sound_returnFalse,
      fun _ _ => avoids_ok _⟩

/-- The accounts of a run are those `OpeatorAccount` left. -/
theorem runGuarded_accounts {out : Outcome}
    (h : runGuarded node tx des view s nHeight ullBurnFactor = .ok out) :
    ∀ k ∈ out.accounts.newAccont, (out.accounts.rawAccont.lookup k).isSome = true := by
  simp only [runGuarded, Except.bind_eq_ok] at h
  obtain ⟨_, -, _, -, ⟨script, type, b⟩, -, r, -, _, -, ⟨s', dblog⟩, -, _, -, w, hw, _, -, app, -, _, -,
    hout⟩ := h
  obtain rfl := Except.ok.inj hout
  exact opeatorAccount_newAccont ((Exec.ofOption_eq_ok Exec.fails_returnFalse).mp hw)

end CVmRunEvn

namespace CTransaction

variable {node : Node} {tx : CTransaction} {nIndex nHeight : ℤ} {nFuelRate : Int32} {vs : Views}

theorem saveContractAccounts_sound {w : CVmRunEvn.AccountWork} {l : List CKeyID}
    (hl : ∀ k ∈ l, (w.rawAccont.lookup k).isSome = true) (st : CAccountViewCache × List CAccountLog) :
    (l.foldlM (saveContractAccountGuarded w) st).Sound := by
  induction l generalizing st with
  | nil => exact avoids_ok _
  | cons k l ih =>
    rw [List.foldlM_cons]
    refine Exec.sound_bind.mpr ⟨?_, fun st' _ => ih (fun j hj => hl j (List.mem_cons_of_mem k hj)) st'⟩
    refine Exec.sound_bind.mpr ⟨Exec.sound_ofOption.mpr fun hnone => ?_, fun _ _ => ?_⟩
    · have hsome := hl k List.mem_cons_self
      rw [hnone] at hsome
      cases hsome
    · refine Exec.sound_bind.mpr ⟨?_, fun _ _ => avoids_ok _⟩
      unfold oldContractAccount
      split
      · exact avoids_ok _
      · split
        · exact Exec.sound_updateFail _
        · exact avoids_ok _

/-- Where the call gets to its script, that can be read. -/
def ScriptReached (node : Node) (tx : CTransaction) (nHeight : ℤ) (nFuelRate : Int32)
    (s : CScriptDBViewCache) (des : CRegID) : Prop :=
  ¬ (limiteAppHeight < nHeight ∧ des ∈ listBlockAppId) ∧
    int32ToUInt64 (getFuelRate node s ((CBaseTransaction.transaction tx).getHash node.cr.Hash)
      nFuelRate) ≠ 0 ∧ CVmRunEvn.minTxFee < tx.ullFees

theorem executeContractGuarded_sound {des : CRegID} (hdes : tx.cDesUserId = .regID des) :
    (tx.executeContractGuarded node nHeight nFuelRate vs).Sound ↔
      (tx.ScriptReached node nHeight nFuelRate vs.scriptDB des →
        CVmRunEvn.ScriptReadable vs.scriptDB des) := by
  unfold executeContractGuarded ScriptReached
  rw [hdes]
  refine Exec.sound_bind.trans ⟨?_, ?_⟩
  · rintro ⟨-, h⟩ ⟨hblock, hburn, hfee⟩ bytes hbytes
    have h1 := h () ((Exec.require_eq_ok (fails_updateFail _)).mpr hblock)
    have h2 := (Exec.sound_bind.mp h1).2 bytes ((Exec.ofOption_eq_ok (fails_updateFail _)).mpr hbytes)
    have h3 := Exec.sound_onFalse.mp (Exec.sound_bind.mp h2).1
    exact CVmRunEvn.runGuarded_sound.mp h3 hburn hfee bytes hbytes
  · intro h
    refine ⟨Exec.sound_require (Exec.sound_updateFail _), fun _ hblock => ?_⟩
    have hblock' := (Exec.require_eq_ok (fails_updateFail _)).mp hblock
    refine Exec.sound_bind.mpr ⟨Exec.sound_ofOption.mpr fun _ => Exec.sound_updateFail _, fun _ _ => ?_⟩
    refine Exec.sound_bind.mpr ⟨?_, fun out hout => ?_⟩
    · rw [Exec.sound_onFalse, CVmRunEvn.runGuarded_sound]
      exact fun hburn hfee => h ⟨hblock', hburn, hfee⟩
    · have hkeys := CVmRunEvn.runGuarded_accounts (Exec.onFalse_eq_ok.mp hout)
      exact Exec.sound_bind.mpr ⟨saveContractAccounts_sound hkeys _, fun _ _ => avoids_ok _⟩

/-- Between accounts named by their ids, and to a key id in a plain transfer, nothing is unpacked. -/
theorem transfer_sound {r : CRegID} (hsrc : tx.cSrcRegId = .regID r)
    (hdes : (∃ des, tx.cDesUserId = .regID des) ∨
      (tx.chTxType = .common ∧ ∃ k, tx.cDesUserId = .keyID k)) (view : CAccountViewCache) :
    (tx.transfer node nHeight view).Sound := by
  unfold transfer
  refine Exec.sound_bind.mpr ⟨Exec.sound_ofOption.mpr fun _ => ?_, fun a _ => ?_⟩
  · rw [hsrc]
    exact Exec.sound_updateFail _
  refine Exec.sound_bind.mpr ⟨Exec.sound_ofOption.mpr fun _ => Exec.sound_updateFail _, fun src _ => ?_⟩
  refine Exec.sound_bind.mpr ⟨?_, fun d _ => ?_⟩
  · unfold desAccount
    split
    · exact avoids_ok _
    · rcases hdes with ⟨des, hdes⟩ | ⟨hcommon, k, hdes⟩
      · rw [hdes]
        cases tx.chTxType <;> exact Exec.sound_updateFail _
      · rw [hdes, hcommon]
        exact avoids_ok _
  refine Exec.sound_bind.mpr ⟨Exec.sound_ofOption.mpr fun _ => Exec.sound_updateFail _, fun _ _ => ?_⟩
  exact Exec.sound_bind.mpr ⟨Exec.sound_ofOption.mpr fun _ => Exec.sound_updateFail _,
    fun _ _ => avoids_ok _⟩

/-- A call to a key id: either it cannot be paid for, or the account there cannot be credited. -/
def CallRefused (node : Node) (tx : CTransaction) (nHeight : ℤ) (view : CAccountViewCache)
    (k : CKeyID) : Prop :=
  ∀ a src, view.getAccount node.cr tx.cSrcRegId = some a →
    a.operateAccount node.cfg .minusFree (tx.ullFees + tx.ullValues) nHeight = some src →
    ∃ d, (view.setAccountKey src.cKeyID src).accounts.lookup k = some d ∧
      d.operateAccount node.cfg .addFree tx.ullValues nHeight = none

theorem executeTxGuarded_keyID {r : CRegID} {k : CKeyID} (hsrc : tx.cSrcRegId = .regID r)
    (htype : tx.chTxType = .contract) (hdes : tx.cDesUserId = .keyID k) :
    (tx.executeTxGuarded node nIndex nHeight nFuelRate vs).Sound ↔
      tx.CallRefused node nHeight vs.view k := by
  have hbad : ∀ {α : Type}, ¬ (Exec.throw "boost::bad_get" : Exec α).Sound :=
    fun h => Exec.sound_throw.mp h (.inl rfl)
  have hcontract : ∀ vs, tx.executeByTypeGuarded node nHeight nFuelRate vs
      = Exec.throw "boost::bad_get" := by
    intro vs
    unfold executeByTypeGuarded executeContractGuarded
    rw [htype, hdes]
    rfl
  unfold executeTxGuarded transfer CallRefused
  cases ha : vs.view.getAccount node.cr tx.cSrcRegId with
  | none =>
    refine iff_of_true ?_ fun a src h => ?_
    · rw [hsrc]
      exact Exec.sound_updateFail _
    · cases h
  | some a =>
    cases hsrc' : a.operateAccount node.cfg .minusFree (tx.ullFees + tx.ullValues) nHeight with
    | none =>
      refine iff_of_true ?_ fun b src hb hsrc => ?_
      · simp only [Exec.ofOption, hsrc', Except.ok_bind]
        exact Exec.sound_updateFail _
      · obtain rfl := Option.some.inj hb
        rw [hsrc'] at hsrc
        cases hsrc
    | some src =>
      cases hd : (vs.view.setAccountKey src.cKeyID src).accounts.lookup k with
      | none =>
        refine iff_of_false ?_ fun h => ?_
        · simp only [Exec.ofOption, hsrc', Except.ok_bind, desAccount, hdes,
            CAccountViewCache.getAccount, hd, htype, Exec.withRegID]
          exact hbad
        · obtain ⟨d, hd', -⟩ := h a src rfl hsrc'
          rw [hd] at hd'
          cases hd'
      | some d =>
        cases hcredit : d.operateAccount node.cfg .addFree tx.ullValues nHeight with
        | none =>
          refine iff_of_true ?_ fun b src' hb hs => ?_
          · simp only [Exec.ofOption, hsrc', Except.ok_bind, desAccount, hdes,
              CAccountViewCache.getAccount, hd, hcredit]
            exact Exec.sound_updateFail _
          · obtain rfl := Option.some.inj hb
            obtain rfl := Option.some.inj (hsrc'.symm.trans hs)
            exact ⟨d, hd, hcredit⟩
        | some des =>
          refine iff_of_false ?_ fun h => ?_
          · simp only [Exec.ofOption, hsrc', Except.ok_bind, desAccount, hdes,
              CAccountViewCache.getAccount, hd, hcredit, CAccountViewCache.setAccount, Except.pure_eq_ok,
              hcontract]
            exact hbad
          · obtain ⟨d', hd', hnone⟩ := h a src rfl hsrc'
            obtain rfl := Option.some.inj (hd.symm.trans hd')
            rw [hcredit] at hnone
            cases hnone

/-- Nothing a transaction unpacks is missing. -/
def Unpacked (node : Node) (tx : CTransaction) (nHeight : ℤ) (nFuelRate : Int32) (vs : Views) : Prop :=
  tx.chTxType = .contract → match tx.cDesUserId with
    | .regID des => ∀ out, tx.transfer node nHeight vs.view = .ok out →
        tx.ScriptReached node nHeight nFuelRate vs.scriptDB des →
          CVmRunEvn.ScriptReadable vs.scriptDB des
    | .keyID k => tx.CallRefused node nHeight vs.view k
    | _ => True

theorem executeTxGuarded_sound {r : CRegID} (hsrc : tx.cSrcRegId = .regID r)
    (hdes : (∃ des, tx.cDesUserId = .regID des) ∨ ∃ k, tx.cDesUserId = .keyID k) :
    (tx.executeTxGuarded node nIndex nHeight nFuelRate vs).Sound ↔
      tx.Unpacked node nHeight nFuelRate vs := by
  have hindex : ∀ (vs : Views) (ids : List CUserID) (hash : Uint256) (f : _ → Executed),
      Exec.Sound (do return f (← writeAddressIndex node vs ids nHeight nIndex hash)) :=
    fun _ _ _ _ => Exec.sound_bind.mpr ⟨(writeAddressIndex_plain _ _ _ _ _ _).sound, fun _ _ => avoids_ok _⟩
  cases htype : tx.chTxType with
  | common =>
    refine iff_of_true ?_ fun h => ?_
    · have hpart : (tx.transfer node nHeight vs.view).Sound :=
        transfer_sound hsrc (hdes.imp_right fun hk => ⟨htype, hk⟩) vs.view
      refine Exec.sound_bind.mpr ⟨hpart, fun out _ => ?_⟩
      unfold executeByTypeGuarded
      rw [htype]
      exact hindex _ _ _ _
    · rw [htype] at h
      cases h
  | contract =>
    rcases hdes with ⟨des, hdes⟩ | ⟨k, hdes⟩
    · unfold Unpacked
      rw [hdes, htype]
      simp only [forall_true_left]
      refine Exec.sound_bind.trans ?_
      have hpart : (tx.transfer node nHeight vs.view).Sound :=
        transfer_sound hsrc (.inl ⟨des, hdes⟩) vs.view
      have htyped : ∀ vs, tx.executeByTypeGuarded node nHeight nFuelRate vs
          = tx.executeContractGuarded node nHeight nFuelRate vs := by
        intro vs
        unfold executeByTypeGuarded
        rw [htype]
      constructor
      · rintro ⟨-, h⟩ out hout
        have h1 := (Exec.sound_bind.mp (h out hout)).1
        rw [htyped] at h1
        have h2 := (executeContractGuarded_sound hdes).mp h1
        exact h2
      · intro h
        refine ⟨hpart, fun out hout => ?_⟩
        refine Exec.sound_bind.mpr ⟨?_, fun _ _ => hindex _ _ _ _⟩
        rw [htyped, executeContractGuarded_sound hdes]
        exact h out hout
    · rw [executeTxGuarded_keyID hsrc htype hdes]
      unfold Unpacked
      rw [hdes, htype]
      simp only [forall_true_left]

end CTransaction

/-! ## Against the plain executions -/

theorem CRegisterAppTx.executeTxGuarded_same (node : Node) (tx : CRegisterAppTx) (nIndex nHeight : ℤ)
    (vs : Views) : Except.SameUnless Fault (tx.executeTxGuarded node nIndex nHeight vs)
      (tx.executeTx node nIndex nHeight vs) := by
  have hcheck : Except.SameUnless Fault (tx.checkScriptGuarded node nHeight)
      (tx.checkScript node nHeight) := by
    by_cases hsound : (tx.checkScriptGuarded node nHeight).Sound
    · left
      have hin := checkScriptGuarded_sound.mp hsound
      unfold checkScriptGuarded checkScript
      cases hread : CVmScript.unserialize tx.vchScript with
      | none => rfl
      | some p =>
        exact congrArg (fun valid : Exec (Option ScriptType) => valid >>= _)
          (CVmScript.isValidGuarded_eq (hin p.1 p.2 hread))
    · exact .inr hsound
  unfold executeTxGuarded executeTx
  refine .bind (.refl _) fun a _ => .bind (.refl _) fun paid _ => ?_
  exact .bind hcheck fun _ _ => .refl _

namespace CVmRunEvn

/-- What `intial` gives for a script that can be read. -/
theorem intialGuarded_eq {s : CScriptDBViewCache} {des : CRegID} (hread : ScriptReadable s des)
    (tx : CTransaction) :
    intialGuarded s des tx = (intial s des tx >>= fun st =>
      Except.ok (st.1, st.2, st.1.isCheckAccount st.2)) := by
  unfold intialGuarded intial
  cases hbytes : s.getScript des.getVec6 with
  | none => rfl
  | some bytes =>
    obtain ⟨script, rest, hparse, hin⟩ := hread bytes hbytes
    simp only [Exec.ofOption, Except.ok_bind, hparse, CVmScript.isValidGuarded_eq hin]
    cases hvalid : script.isValid with
    | none => rfl
    | some type =>
      simp only [Except.ok_bind, CVmScript.isCheckAccountGuarded_eq hin hvalid]
      cases Exec.require (tx.vchContract.length < 4 * 1024) Exec.returnFalse with
      | error e => rfl
      | ok u => rfl

theorem runGuarded_same (node : Node) (tx : CTransaction) (des : CRegID) (view : CAccountViewCache)
    (s : CScriptDBViewCache) (nHeight : ℤ) (ullBurnFactor : UInt64) :
    Except.SameUnless Fault (runGuarded node tx des view s nHeight ullBurnFactor)
      (run node tx des view s nHeight ullBurnFactor) := by
  by_cases hsound : (runGuarded node tx des view s nHeight ullBurnFactor).Sound
  · left
    have hread := runGuarded_sound.mp hsound
    unfold runGuarded run
    by_cases hburn : ullBurnFactor ≠ 0
    · by_cases hfee : minTxFee < tx.ullFees
      · rw [intialGuarded_eq (hread hburn hfee)]
        cases intial s des tx with
        | error e => rfl
        | ok st =>
          obtain ⟨script, type⟩ := st
          cases type <;> rfl
      · simp only [Exec.require, if_pos hburn, if_neg hfee]
        rfl
    · simp only [Exec.require, if_neg hburn]
      rfl
  · exact .inr hsound

end CVmRunEvn

namespace CTransaction

theorem saveContractAccounts_same {w : CVmRunEvn.AccountWork} {l : List CKeyID}
    (hl : ∀ k ∈ l, (w.rawAccont.lookup k).isSome = true) (st : CAccountViewCache × List CAccountLog) :
    l.foldlM (saveContractAccountGuarded w) st = l.foldlM (saveContractAccount w) st := by
  induction l generalizing st with
  | nil => rfl
  | cons k l ih =>
    obtain ⟨itemAccount, hitem⟩ := Option.isSome_iff_exists.mp (hl k List.mem_cons_self)
    have hstep : saveContractAccountGuarded w st k = saveContractAccount w st k := by
      unfold saveContractAccountGuarded saveContractAccount
      rw [hitem]
      rfl
    rw [List.foldlM_cons, List.foldlM_cons, hstep]
    congr 1
    funext st'
    exact ih (fun j hj => hl j (List.mem_cons_of_mem k hj)) st'

theorem executeContractGuarded_same (node : Node) (tx : CTransaction) (nHeight : ℤ) (nFuelRate : Int32)
    (vs : Views) : Except.SameUnless Fault (tx.executeContractGuarded node nHeight nFuelRate vs)
      (tx.executeContract node nHeight nFuelRate vs) := by
  unfold executeContractGuarded executeContract Exec.withRegID
  cases tx.cDesUserId with
  | regID des =>
    refine .bind (.refl _) fun _ _ => .bind (.refl _) fun _ _ => ?_
    dsimp only
    rcases CVmRunEvn.runGuarded_same node tx des vs.view vs.scriptDB nHeight
      (int32ToUInt64 (getFuelRate node vs.scriptDB
        ((CBaseTransaction.transaction tx).getHash node.cr.Hash) nFuelRate)) with heq | hfault
    · rw [← heq]
      refine .bind (.refl _) fun out hout => ?_
      left
      rw [saveContractAccounts_same (CVmRunEvn.runGuarded_accounts (Exec.onFalse_eq_ok.mp hout))]
    · right
      exact fun hx => hfault (Exec.sound_onFalse.mp (Exec.sound_bind.mp hx).1)
  | _ => exact .refl _

theorem executeTxGuarded_same (node : Node) (tx : CTransaction) (nIndex nHeight : ℤ) (nFuelRate : Int32)
    (vs : Views) : Except.SameUnless Fault (tx.executeTxGuarded node nIndex nHeight nFuelRate vs)
      (tx.executeTx node nIndex nHeight nFuelRate vs) := by
  unfold executeTxGuarded executeTx executeByTypeGuarded executeByType
  refine .bind (.refl _) fun out _ => ?_
  cases tx.chTxType with
  | common => exact .refl _
  | contract => exact .bind (executeContractGuarded_same _ _ _ _ _) fun _ _ => .refl _

end CTransaction

namespace CBaseTransaction

/-- Nothing an execution unpacks is missing: no contract is called by a key id, and all the code that
is registered or run can be read. -/
def Unpacked (node : Node) (nHeight : ℤ) (nFuelRate : Int32) (vs : Views) : CBaseTransaction → Prop
  | reward _ => True
  | registerAccount _ => True
  | transaction tx => tx.Unpacked node nHeight nFuelRate vs
  | registerApp tx => tx.CodeReadable node nHeight vs

theorem executeTxGuarded_same (node : Node) (tx : CBaseTransaction) (nIndex nHeight : ℤ)
    (nFuelRate : Int32) (vs : Views) :
    Except.SameUnless Fault (tx.executeTxGuarded node nIndex nHeight nFuelRate vs)
      (tx.executeTx node nIndex nHeight nFuelRate vs) :=
  match tx with
  | reward _ => .refl _
  | registerAccount _ => .refl _
  | transaction tx => tx.executeTxGuarded_same node nIndex nHeight nFuelRate vs
  | registerApp tx => tx.executeTxGuarded_same node nIndex nHeight vs

/-- The ids of a transaction are of the kinds its execution unpacks. -/
def IdsChecked : CBaseTransaction → Prop
  | reward _ => True
  | registerAccount tx => ∃ pk, tx.cUserId = .pubKey pk
  | transaction tx => (∃ r, tx.cSrcRegId = .regID r) ∧
      ((∃ des, tx.cDesUserId = .regID des) ∨ ∃ k, tx.cDesUserId = .keyID k)
  | registerApp tx => ∃ r, tx.cRegAcctId = .regID r

theorem idsChecked_transaction {node : Node} {tx : CTransaction} {view : CAccountViewCache}
    (h : tx.checkTransction node view = .ok ()) : IdsChecked (transaction tx) := by
  unfold CTransaction.checkTransction at h
  cases hid : tx.cSrcRegId with
  | regID r =>
    rw [hid] at h
    simp only [Except.bind_eq_ok] at h
    obtain ⟨_, hdes, -⟩ := h
    have hkind := (Exec.require_eq_ok (Exec.fails_doS _ _ _ _)).mp hdes
    refine ⟨⟨r, hid⟩, ?_⟩
    cases hd : tx.cDesUserId with
    | regID des => exact .inl ⟨des, rfl⟩
    | keyID k => exact .inr ⟨k, rfl⟩
    | _ => simp [hd, CUserID.isRegID, CUserID.isKeyID] at hkind
  | _ =>
    rw [hid] at h
    cases h

/-- The check admits no other kinds; it does not look at the class of what is called. -/
theorem checkTransction_ids {node : Node} {tx : CBaseTransaction} {view : CAccountViewCache}
    {s : CScriptDBViewCache} (h : tx.checkTransction node view s = .ok ()) : tx.IdsChecked := by
  cases tx with
  | reward tx => trivial
  | registerAccount tx =>
    replace h : tx.checkTransction node = .ok () := h
    unfold CRegisterAccountTx.checkTransction at h
    cases hid : tx.cUserId with
    | pubKey pk => exact ⟨pk, hid⟩
    | _ =>
      rw [hid] at h
      cases h
  | transaction tx => exact idsChecked_transaction h
  | registerApp tx =>
    replace h : tx.checkTransction node view s = .ok () := h
    unfold CRegisterAppTx.checkTransction at h
    cases hid : tx.cRegAcctId with
    | regID r => exact ⟨r, hid⟩
    | _ =>
      rw [hid] at h
      cases h

/-- A checked transaction executes without a fault exactly when nothing it unpacks is missing, and
an execution without a fault is the plain one. -/
theorem checked_sound_iff (node : Node) (tx : CBaseTransaction) (nIndex nHeight : ℤ) (nFuelRate : Int32)
    (vs : Views) (hcheck : tx.checkTransction node vs.view vs.scriptDB = .ok ()) :
    ((tx.executeTxGuarded node nIndex nHeight nFuelRate vs).Sound ↔
      tx.Unpacked node nHeight nFuelRate vs) ∧
    Except.SameUnless Fault (tx.executeTxGuarded node nIndex nHeight nFuelRate vs)
      (tx.executeTx node nIndex nHeight nFuelRate vs) := by
  have hids := checkTransction_ids hcheck
  refine ⟨?_, tx.executeTxGuarded_same node nIndex nHeight nFuelRate vs⟩
  cases tx with
  | reward tx => exact iff_of_true (tx.executeTx_sound node nIndex nHeight vs) trivial
  | registerAccount tx =>
    obtain ⟨pk, hpk⟩ := hids
    exact iff_of_true (CRegisterAccountTx.executeTx_sound hpk nIndex nHeight vs) trivial
  | transaction tx =>
    obtain ⟨⟨r, hsrc⟩, hdes⟩ := hids
    exact CTransaction.executeTxGuarded_sound hsrc hdes
  | registerApp tx =>
    obtain ⟨r, hr⟩ := hids
    exact CRegisterAppTx.executeTxGuarded_sound hr

/-! ## Three transactions of one holder -/

open Sample

/-- A holder with ten coins, and no contracts. -/
def holderViews : Views where
  view := viewOf [holder] [(⟨50, 1⟩, keyId 5)] 0
  scriptDB := scriptsOf []

/-- Registers an 8051 program, for a fee of one coin. -/
def registration (rom : Bytes) : CBaseTransaction :=
  let tx : CRegisterAppTx :=
    ⟨2, 100, .regID ⟨50, 1⟩, Codec.writeCompactSize rom.length ++ rom ++ [0], 100000000, []⟩
  .registerApp { tx with vchSignature := sign (.registerApp tx) 5 }

/-- Calls a contract by a key id. -/
def keyIdCall : CBaseTransaction :=
  let tx : CTransaction :=
    ⟨.contract, 2, 100, .regID ⟨50, 1⟩, .keyID (keyId 7), 20000, 500000000, [], []⟩
  .transaction { tx with vchSignature := sign (.transaction tx) 5 }

/-- A program of 21 bytes is registered without a fault. -/
theorem registration_sound :
    ((registration (2 :: List.replicate 20 0)).executeTxGuarded node 1 100 0 holderViews).Sound := by
  refine (checked_sound_iff node _ 1 100 0 holderViews (by decide +kernel)).1.mpr ?_
  intro a paid script rest _ _ hread
  have hparse : CVmScript.unserialize (Codec.writeCompactSize 21 ++ (2 :: List.replicate 20 0) ++ [0])
      = some (⟨2 :: List.replicate 20 0, []⟩, []) := by decide +kernel
  obtain ⟨rfl, -⟩ := Prod.mk.inj (Option.some.inj (hparse.symm.trans hread))
  unfold CVmScript.ReadsInside
  decide +kernel

/-- A program of one byte passes `CheckTransaction`, of which the check of the class is a part, and so does the
call; neither executes without a fault. -/
theorem checked_faults :
    (registration [2]).checkTransaction node holderViews.view holderViews.scriptDB = .ok () ∧
    (registration [2]).executeTxGuarded node 1 100 0 holderViews = Exec.throw outsideRom ∧
    keyIdCall.checkTransaction node holderViews.view holderViews.scriptDB = .ok () ∧
    keyIdCall.executeTxGuarded node 1 100 0 holderViews = Exec.throw "boost::bad_get" ∧
    ¬ ∀ tx : CBaseTransaction,
      tx.checkTransction node holderViews.view holderViews.scriptDB = .ok () →
        (tx.executeTxGuarded node 1 100 0 holderViews).Sound := by
  have hcheck : keyIdCall.checkTransaction node holderViews.view holderViews.scriptDB = .ok () := by
    decide +kernel
  have hbad : keyIdCall.executeTxGuarded node 1 100 0 holderViews = Exec.throw "boost::bad_get" := by
    rfl
  refine ⟨by decide +kernel, rfl, hcheck, hbad, fun hall => ?_⟩
  have hsound := hall keyIdCall (by decide +kernel)
  rw [hbad] at hsound
  exact Exec.sound_throw.mp hsound (.inl rfl)

end CBaseTransaction

end Dacrs
