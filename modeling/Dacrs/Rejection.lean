import Dacrs.ConnectSpec
import Dacrs.ExecuteFrame
import Dacrs.Faults

/-!
# Which rejections are recorded

`ConnectTip` looks at the validation state when `ConnectBlock` has returned false, and marks the block
only if the state is invalid and no corruption is possible.  Here are the exits of the transactions and
of `ConnectBlock` that leave the state so, and those that do not.
-/

open Codec (Bytes)

namespace Dacrs

open Except (avoids_ok avoids_error avoids_bind)

/-! ## Calls on the state -/

/-- A state that was valid is invalid after the calls, and not for a possible corruption. -/
def Recorded (calls : List StateCall) : Prop :=
  ∀ st : CValidationState, st.emMode = .valid →
    (calls.foldl CValidationState.apply st).isInvalid = true ∧
      (calls.foldl CValidationState.apply st).bCorruptionPossible = false

theorem recorded_doS (level : ℤ) (code : UInt8) (reason : String) :
    Recorded [.doS level code reason false] := by
  intro st hst
  have hne : ¬ st.emMode = .error := by
    rw [hst]
    decide
  have happly : st.apply (.doS level code reason false)
      = ⟨.invalid, st.nDoS + level, reason, code, false⟩ := by
    unfold CValidationState.apply
    dsimp only
    rw [if_neg hne]
  rw [List.foldl_cons, List.foldl_nil, happly]
  exact ⟨rfl, rfl⟩

theorem not_recorded_nil : ¬ Recorded [] := by
  intro h
  have hinit := (h .init rfl).1
  cases hinit

theorem not_recorded_error (reason : String) : ¬ Recorded [.error reason] := by
  intro h
  have hinit := (h .init rfl).1
  cases hinit

theorem not_recorded_corruption (level : ℤ) (code : UInt8) (reason : String) :
    ¬ Recorded [.doS level code reason true] := by
  intro h
  have hinit := (h .init rfl).2
  cases hinit

/-- `return false`, and the state does not say that the block is invalid. -/
def Exit.Unrecorded : Exit → Prop
  | .fail calls => ¬ Recorded calls
  | .throw _ => False

/-- Where it returns false, the state says that the block is invalid. -/
abbrev Exec.Loud {α : Type} (x : Exec α) : Prop := Except.Avoids Exit.Unrecorded x

/-- `return false` after calls on the state. -/
def Exit.Called : Exit → Prop
  | .fail calls => calls ≠ []
  | .throw _ => False

abbrev Exec.Uncalled {α : Type} (x : Exec α) : Prop := Except.Avoids Exit.Called x

namespace Exec

variable {α β : Type}

theorem loud_doS (level : ℤ) (code : UInt8) (reason : String) :
    Loud (doS level code reason : Exec α) :=
  avoids_error.mpr fun h => h (recorded_doS level code reason)

theorem loud_reject (reason : String) : Loud (reject reason : Exec α) := loud_doS _ _ _

theorem loud_updateFail (reason : String) : Loud (updateFail reason : Exec α) := loud_doS _ _ _

theorem loud_throw (what : String) : Loud (throw what : Exec α) := avoids_error.mpr id

theorem not_loud_returnFalse : ¬ Loud (returnFalse : Exec α) := fun h =>
  avoids_error.mp h not_recorded_nil

theorem not_loud_abort (reason : String) : ¬ Loud (abort reason : Exec α) := fun h =>
  avoids_error.mp h (not_recorded_error reason)

theorem not_loud_corruption (level : ℤ) (code : UInt8) (reason : String) :
    ¬ Loud (doS level code reason true : Exec α) := fun h =>
  avoids_error.mp h (not_recorded_corruption level code reason)

theorem loud_bind {x : Exec α} {f : α → Exec β} :
    Loud (x >>= f) ↔ Loud x ∧ ∀ a, x = .ok a → Loud (f a) := avoids_bind

theorem loud_require {p : Prop} [Decidable p] {els : Exec Unit} (h : Loud els) :
    Loud (require p els) := by
  unfold require
  split
  · exact avoids_ok ()
  · exact h

theorem loud_require_iff {p : Prop} [Decidable p] {els : Exec Unit} (h : ¬ Loud els) :
    Loud (require p els) ↔ p := by
  unfold require
  split
  · next hp => exact iff_of_true (avoids_ok ()) hp
  · next hp => exact iff_of_false h hp

theorem loud_ofOption {o : Option α} {els : Exec α} (h : Loud els) : Loud (ofOption o els) := by
  cases o with
  | none => exact h
  | some a => exact avoids_ok a

theorem loud_ofOption_iff {o : Option α} {els : Exec α} (h : ¬ Loud els) :
    Loud (ofOption o els) ↔ o.isSome = true := by
  cases o with
  | none => exact iff_of_false h Bool.false_ne_true
  | some a => exact iff_of_true (avoids_ok a) rfl

theorem loud_withRegID {id : CUserID} {f : CRegID → Exec α} (h : ∀ r, Loud (f r)) :
    Loud (withRegID id f) := by
  cases id with
  | regID r => exact h r
  | _ => exact loud_throw _

/-- The caller's own call is the only one. -/
theorem loud_onFalse {x : Exec α} (h : Uncalled x) (level : ℤ) (code : UInt8) (reason : String) :
    Loud (x.onFalse (.doS level code reason false)) := by
  cases x with
  | ok a => exact avoids_ok a
  | error e =>
    cases e with
    | throw what => exact loud_throw what
    | fail calls =>
      have hnil : calls = [] := by
        by_contra hne
        exact avoids_error.mp h hne
      subst hnil
      exact loud_doS level code reason

theorem uncalled_bind {x : Exec α} {f : α → Exec β} :
    Uncalled (x >>= f) ↔ Uncalled x ∧ ∀ a, x = .ok a → Uncalled (f a) := avoids_bind

theorem uncalled_returnFalse : Uncalled (returnFalse : Exec α) := avoids_error.mpr fun h => h rfl

theorem uncalled_throw (what : String) : Uncalled (throw what : Exec α) := avoids_error.mpr id

theorem uncalled_require {p : Prop} [Decidable p] : Uncalled (require p returnFalse) := by
  unfold require
  split
  · exact avoids_ok ()
  · exact uncalled_returnFalse

theorem uncalled_ofOption {o : Option α} : Uncalled (ofOption o returnFalse) := by
  cases o with
  | none => exact uncalled_returnFalse
  | some a => exact avoids_ok a

theorem Plain.uncalled {x : Exec α} (h : Plain x) : Uncalled x := by
  intro e he hcalled
  cases e with
  | throw what => exact hcalled
  | fail calls => exact h _ he hcalled

end Exec

/-! ## Contracts -/

namespace CVmRunEvn

variable {node : Node} {tx : CTransaction} {des : CRegID}

theorem intial_uncalled (s : CScriptDBViewCache) : (intial s des tx).Uncalled := by
  refine Exec.uncalled_bind.mpr ⟨Exec.uncalled_ofOption, fun vuchScript _ => ?_⟩
  split
  · exact Exec.uncalled_throw _
  · refine Exec.uncalled_bind.mpr ⟨Exec.uncalled_ofOption, fun type _ => ?_⟩
    exact Exec.uncalled_bind.mpr ⟨Exec.uncalled_require, fun _ _ => avoids_ok _⟩

/-- A contract that fails makes no call on the state. -/
theorem run_uncalled (view : CAccountViewCache) (s : CScriptDBViewCache) (nHeight : ℤ)
    (ullBurnFactor : UInt64) : (run node tx des view s nHeight ullBurnFactor).Uncalled := by
  unfold run
  refine Exec.uncalled_bind.mpr ⟨Exec.uncalled_require, fun _ _ => ?_⟩
  refine Exec.uncalled_bind.mpr ⟨Exec.uncalled_require, fun _ _ => ?_⟩
  refine Exec.uncalled_bind.mpr ⟨intial_uncalled s, fun script _ => ?_⟩
  refine Exec.uncalled_bind.mpr ⟨(interpret_plain _ _).uncalled, fun r _ => ?_⟩
  refine Exec.uncalled_bind.mpr ⟨Exec.uncalled_require, fun _ _ => ?_⟩
  refine Exec.uncalled_bind.mpr ⟨(runDb_plain _ _ _).uncalled, fun db _ => ?_⟩
  refine Exec.uncalled_bind.mpr ⟨Exec.uncalled_require, fun _ _ => ?_⟩
  refine Exec.uncalled_bind.mpr ⟨Exec.uncalled_ofOption, fun accounts _ => ?_⟩
  refine Exec.uncalled_bind.mpr ⟨Exec.uncalled_require, fun _ _ => ?_⟩
  refine Exec.uncalled_bind.mpr ⟨(opeatorAppAccount_plain _ _ _ _ _).uncalled, fun app _ => ?_⟩
  exact Exec.uncalled_bind.mpr ⟨Exec.uncalled_ofOption, fun _ _ => avoids_ok _⟩

end CVmRunEvn

/-! ## The address index -/

/-- The index is written if every account named is known. -/
theorem writeAddressIndex_ok {node : Node} {vs : Views} {ids : List CUserID} (nHeight nIndex : ℤ)
    (hash : Uint256) (h : ∀ id ∈ ids, (vs.view.getKeyId node.cr id).isSome = true) :
    ∃ r, writeAddressIndex node vs ids nHeight nIndex hash = .ok r := by
  have hkeys : ∃ keys, (ids.mapM fun id =>
      Exec.ofOption (vs.view.getKeyId node.cr id) Exec.returnFalse) = .ok keys := by
    induction ids with
    | nil => exact ⟨[], rfl⟩
    | cons id ids ih =>
      obtain ⟨k, hk⟩ := Option.isSome_iff_exists.mp (h id List.mem_cons_self)
      obtain ⟨keys, hrest⟩ := ih fun id hid => h id (List.mem_cons_of_mem _ hid)
      refine ⟨k :: keys, ?_⟩
      rw [List.mapM_cons, hk, hrest]
      rfl
  obtain ⟨keys, hkeys⟩ := hkeys
  unfold writeAddressIndex
  split
  · exact ⟨_, by rw [hkeys, Except.ok_bind]; rfl⟩
  · exact ⟨_, rfl⟩

theorem writeAddressIndex_loud {node : Node} {vs : Views} {ids : List CUserID} {nHeight nIndex : ℤ}
    {hash : Uint256} (h : ∀ id ∈ ids, (vs.view.getKeyId node.cr id).isSome = true) :
    (writeAddressIndex node vs ids nHeight nIndex hash).Loud := by
  obtain ⟨r, hr⟩ := writeAddressIndex_ok nHeight nIndex hash h
  rw [hr]
  exact avoids_ok r

theorem CAccountViewCache.getKeyId_isSome {v : CAccountViewCache} {cr : Crypto} {id : CUserID}
    {a : CAccount} (h : v.getAccount cr id = some a) : (v.getKeyId cr id).isSome = true := by
  obtain ⟨k, hk, -⟩ := (v.getAccount_eq_some_iff cr id a).mp h
  rw [hk]
  rfl

/-! ## Transactions -/

theorem CRewardTransaction.executeTx_loud (node : Node) (tx : CRewardTransaction) {nIndex : ℤ}
    (nHeight : ℤ) (vs : Views) (hindex : nIndex = 0 ∨ nIndex = -1) :
    (tx.executeTx node nIndex nHeight vs).Loud := by
  unfold executeTx
  split
  · next r hr =>
    refine Exec.loud_bind.mpr ⟨Exec.loud_ofOption (Exec.loud_updateFail _), fun a ha => ?_⟩
    have hread := (Exec.ofOption_eq_ok (fails_updateFail _)).mp ha
    refine Exec.loud_bind.mpr ⟨?_, fun b _ => ?_⟩
    · unfold operateReward
      rcases hindex with rfl | rfl
      · exact avoids_ok _
      · exact avoids_ok _
    · refine Exec.loud_bind.mpr ⟨?_, fun _ _ => avoids_ok _⟩
      unfold indexReward
      split
      · refine writeAddressIndex_loud fun id hid => ?_
        rw [List.mem_singleton.mp hid, hr]
        have hkey : (vs.view.getKeyId node.cr (.regID r)).isSome = true :=
          CAccountViewCache.getKeyId_isSome (a := a) hread
        exact hkey
      · exact avoids_ok _
  · exact Exec.loud_updateFail _

namespace CRegisterAccountTx

variable {node : Node} {tx : CRegisterAccountTx}

theorem registerAccount_loud (pk : CPubKey) (cRegId : CRegID) (nHeight : ℤ) (a : CAccount) :
    (tx.registerAccount node pk cRegId nHeight a).Loud := by
  refine Exec.loud_bind.mpr ⟨?_, fun b _ => ?_⟩
  · unfold payFee
    split
    · exact Exec.loud_ofOption (Exec.loud_updateFail _)
    · exact avoids_ok _
  · unfold setMinerKey
    split
    · split
      · exact Exec.loud_updateFail _
      · exact avoids_ok _
    · exact avoids_ok _

theorem executeTx_loud (nIndex nHeight : ℤ) (vs : Views) :
    (tx.executeTx node nIndex nHeight vs).Loud := by
  unfold executeTx
  split
  · next pk hpk =>
    refine Exec.loud_bind.mpr ⟨Exec.loud_ofOption (Exec.loud_updateFail _), fun a _ => ?_⟩
    refine Exec.loud_bind.mpr ⟨Exec.loud_require (Exec.loud_updateFail _), fun _ _ => ?_⟩
    refine Exec.loud_bind.mpr ⟨registerAccount_loud _ _ _ _, fun b _ => ?_⟩
    refine Exec.loud_bind.mpr ⟨writeAddressIndex_loud fun id hid => ?_, fun _ _ => avoids_ok _⟩
    rw [List.mem_singleton.mp hid, hpk]
    rfl
  · exact Exec.loud_throw _

end CRegisterAccountTx

namespace CTransaction

variable {node : Node} {tx : CTransaction} {nHeight : ℤ}

theorem desAccount_loud (view : CAccountViewCache) : (tx.desAccount node view).Loud := by
  unfold desAccount
  split
  · exact avoids_ok _
  · split
    · exact avoids_ok _
    · exact Exec.loud_withRegID fun _ => Exec.loud_updateFail _

theorem transfer_loud (view : CAccountViewCache) : (tx.transfer node nHeight view).Loud := by
  refine Exec.loud_bind.mpr ⟨Exec.loud_ofOption (Exec.loud_withRegID fun _ => Exec.loud_updateFail _), fun a _ => ?_⟩
  refine Exec.loud_bind.mpr ⟨Exec.loud_ofOption (Exec.loud_updateFail _), fun src _ => ?_⟩
  refine Exec.loud_bind.mpr ⟨desAccount_loud _, fun d _ => ?_⟩
  refine Exec.loud_bind.mpr ⟨Exec.loud_ofOption (Exec.loud_updateFail _), fun des _ => ?_⟩
  exact Exec.loud_bind.mpr ⟨Exec.loud_ofOption (Exec.loud_updateFail _), fun _ _ => avoids_ok _⟩

theorem saveContractAccount_loud (w : CVmRunEvn.AccountWork)
    (st : CAccountViewCache × List CAccountLog) (k : CKeyID) : (saveContractAccount w st k).Loud := by
  refine Exec.loud_bind.mpr ⟨?_, fun _ _ => avoids_ok _⟩
  unfold oldContractAccount
  split
  · exact avoids_ok _
  · split
    · exact Exec.loud_updateFail _
    · exact avoids_ok _

theorem executeByType_loud (nFuelRate : Int32) (vs : Views) :
    (tx.executeByType node nHeight nFuelRate vs).Loud := by
  unfold executeByType
  split
  · refine Exec.loud_withRegID fun des => ?_
    refine Exec.loud_bind.mpr ⟨Exec.loud_require (Exec.loud_updateFail _), fun _ _ => ?_⟩
    refine Exec.loud_bind.mpr ⟨Exec.loud_ofOption (Exec.loud_updateFail _), fun _ _ => ?_⟩
    refine Exec.loud_bind.mpr ⟨Exec.loud_onFalse (CVmRunEvn.run_uncalled _ _ _ _) _ _ _, fun out _ => ?_⟩
    exact Exec.loud_bind.mpr ⟨Except.Avoids.foldlM (saveContractAccount_loud _) _ _, fun _ _ => avoids_ok _⟩
  · exact avoids_ok _

/-- Both accounts of a transfer are known. -/
theorem transfer_known {view view' : CAccountViewCache} {logs : List CAccountLog}
    (h : tx.transfer node nHeight view = .ok (view', logs)) :
    ∀ id ∈ [tx.cSrcRegId, tx.cDesUserId], (view'.getKeyId node.cr id).isSome = true := by
  have hnames := transfer_sameNames h
  obtain ⟨a, s, d, d', dlog, ha, -, hd, -, -, -⟩ := transfer_cases h
  intro id hid
  rw [hnames.getKeyId]
  rcases List.mem_pair.mp hid with rfl | rfl
  · exact CAccountViewCache.getKeyId_isSome ha
  · rcases desAccount_cases hd with ⟨hget, -⟩ | ⟨-, k, hk, -⟩
    · have hkey := CAccountViewCache.getKeyId_isSome hget
      have hset : (view.setAccountKey s.cKeyID s).SameNames view := ⟨rfl, rfl⟩
      rw [hset.getKeyId] at hkey
      exact hkey
    · rw [hk]
      rfl

theorem executeTx_loud (nIndex : ℤ) (nFuelRate : Int32) (vs : Views) :
    (tx.executeTx node nIndex nHeight nFuelRate vs).Loud := by
  refine Exec.loud_bind.mpr ⟨transfer_loud _, ?_⟩
  rintro ⟨view, logs⟩ htransfer
  refine Exec.loud_bind.mpr ⟨executeByType_loud _ _, ?_⟩
  rintro ⟨vs', contractLogs, dblog, step⟩ htype
  refine Exec.loud_bind.mpr ⟨writeAddressIndex_loud fun id hid => ?_, fun _ _ => avoids_ok _⟩
  rw [(executeByType_sameNames htype).getKeyId]
  exact transfer_known htransfer id hid

end CTransaction

namespace CRegisterAppTx

variable {node : Node} {tx : CRegisterAppTx} {nIndex nHeight : ℤ} {vs : Views}

/-- The account view when the address index is written. -/
def indexedView (node : Node) (nIndex nHeight : ℤ) (vs : Views) (acct : CAccount) : CAccountViewCache :=
  let cRegId := CRegID.ofPosition nHeight nIndex
  (vs.view.saveAccountInfo cRegId (contractKeyId node.cr cRegId)
    (contractAccount node.cr cRegId)).setAccountKey acct.cKeyID acct

/-- The registration gets as far as the address index, and there the registrant has no key id, or he is
not the one who may still register. -/
def Refused (node : Node) (tx : CRegisterAppTx) (nIndex nHeight : ℤ) (vs : Views) : Prop :=
  ∃ cAcctInfo paid s, vs.view.getAccount node.cr tx.cRegAcctId = some cAcctInfo ∧
    tx.payFee node nHeight cAcctInfo = .ok paid ∧ tx.checkScript node nHeight = .ok () ∧
    vs.scriptDB.setScript (CRegID.ofPosition nHeight nIndex).getVec6 tx.vchScript = .ok s ∧
    ((node.cfg.bAddressToTx = true ∧
        (indexedView node nIndex nHeight vs paid.1).getKeyId node.cr tx.cRegAcctId = none) ∨
      (limiteAppHeight < nHeight ∧ cAcctInfo.cKeyID ≠ appRegistrant))

theorem payFee_loud (a : CAccount) : (tx.payFee node nHeight a).Loud := by
  unfold payFee
  split
  · refine Exec.loud_bind.mpr ⟨Exec.loud_ofOption ?_, fun _ _ => avoids_ok _⟩
    exact Exec.loud_withRegID fun _ => Exec.loud_updateFail _
  · exact avoids_ok _

theorem checkScript_loud : (tx.checkScript node nHeight).Loud := by
  unfold checkScript
  split
  · exact Exec.loud_updateFail _
  · split
    · exact Exec.loud_updateFail _
    · exact Exec.loud_require (Exec.loud_updateFail _)
    · exact Exec.loud_require (Exec.loud_updateFail _)

/-- No entry is written for an account without a key id. -/
theorem writeAddressIndex_fails {vs : Views} {id : CUserID} {hash : Uint256}
    (hon : node.cfg.bAddressToTx = true) (hnone : vs.view.getKeyId node.cr id = none) :
    writeAddressIndex node vs [id] nHeight nIndex hash = .error (.fail []) := by
  unfold writeAddressIndex
  rw [if_pos hon, List.mapM_cons, hnone]
  rfl

theorem writeAddressIndex_one_ok (vs : Views) {id : CUserID} {hash : Uint256}
    (h : ¬ (node.cfg.bAddressToTx = true ∧ vs.view.getKeyId node.cr id = none)) :
    ∃ r, writeAddressIndex node vs [id] nHeight nIndex hash = .ok r := by
  by_cases hon : node.cfg.bAddressToTx = true
  · refine writeAddressIndex_ok _ _ _ fun id' hid => ?_
    rw [List.mem_singleton.mp hid]
    exact Option.isSome_iff_ne_none.mpr fun hnone => h ⟨hon, hnone⟩
  · unfold writeAddressIndex
    rw [if_neg hon]
    exact ⟨_, rfl⟩

/-- Every rejection of a registration is recorded but two. -/
theorem executeTx_loud :
    (tx.executeTx node nIndex nHeight vs).Loud ↔ ¬ tx.Refused node nIndex nHeight vs := by
  constructor
  · rintro h ⟨acct, ⟨paid, logs⟩, s, hacct, hpay, hcheck, hs, hbad⟩
    have h1 := (Exec.loud_bind.mp h).2 acct ((Exec.ofOption_eq_ok (fails_updateFail _)).mpr hacct)
    have h2 := (Exec.loud_bind.mp h1).2 (paid, logs) hpay
    have h3 := (Exec.loud_bind.mp h2).2 () hcheck
    have h4 := (Exec.loud_bind.mp h3).2 s (Exec.onFalse_eq_ok.mpr hs)
    obtain ⟨hindex, hlast⟩ := Exec.loud_bind.mp h4
    by_cases hunknown : node.cfg.bAddressToTx = true ∧
        (indexedView node nIndex nHeight vs paid).getKeyId node.cr tx.cRegAcctId = none
    · have hfails := hindex _ (writeAddressIndex_fails hunknown.1 hunknown.2)
      exact hfails not_recorded_nil
    · obtain ⟨r, hr⟩ := writeAddressIndex_one_ok ⟨indexedView node nIndex nHeight vs paid, s⟩ hunknown
      have hother := hbad.resolve_left hunknown
      rw [← (payFee_cases hpay).1.cKeyID] at hother
      have hreq := (Exec.loud_bind.mp (hlast r hr)).1
      rw [Exec.loud_require_iff Exec.not_loud_returnFalse] at hreq
      exact hreq hother
  · intro h
    refine Exec.loud_bind.mpr ⟨Exec.loud_ofOption (Exec.loud_updateFail _), fun acct hacct => ?_⟩
    refine Exec.loud_bind.mpr ⟨payFee_loud _, ?_⟩
    rintro ⟨paid, logs⟩ hpay
    refine Exec.loud_bind.mpr ⟨checkScript_loud, fun _ hcheck => ?_⟩
    refine Exec.loud_bind.mpr ⟨Exec.loud_onFalse (vs.scriptDB.setScript_plain _ _).uncalled _ _ _, fun s hs => ?_⟩
    have hreads := (Exec.ofOption_eq_ok (fails_updateFail _)).mp hacct
    have hpasses := fun hbad => h ⟨acct, (paid, logs), s, hreads, hpay, hcheck, Exec.onFalse_eq_ok.mp hs, hbad⟩
    obtain ⟨r, hr⟩ := writeAddressIndex_one_ok ⟨indexedView node nIndex nHeight vs paid, s⟩
      fun hunknown => hpasses (.inl hunknown)
    refine Exec.loud_bind.mpr ⟨?_, fun _ _ => ?_⟩
    · show Exec.Loud (writeAddressIndex node ⟨indexedView node nIndex nHeight vs paid, s⟩ _ _ _ _)
      rw [hr]
      exact avoids_ok r
    · refine Exec.loud_bind.mpr ⟨?_, fun _ _ => avoids_ok _⟩
      rw [Exec.loud_require_iff Exec.not_loud_returnFalse]
      intro hother
      rw [(payFee_cases hpay).1.cKeyID] at hother
      exact hpasses (.inr hother)

end CRegisterAppTx

/-- A registration of a contract that is refused without a word. -/
def CBaseTransaction.Refused (node : Node) (tx : CBaseTransaction) (nIndex nHeight : ℤ) (vs : Views) : Prop :=
  match tx with
  | registerApp tx => tx.Refused node nIndex nHeight vs
  | _ => False

/-- `ExecuteTx`, on the indices that `ConnectBlock` gives a coinbase. -/
theorem CBaseTransaction.executeTx_loud {node : Node} {tx : CBaseTransaction} {nIndex nHeight : ℤ}
    {nFuelRate : Int32} {vs : Views} (hindex : ∀ r, tx = .reward r → nIndex = 0 ∨ nIndex = -1) :
    (tx.executeTx node nIndex nHeight nFuelRate vs).Loud ↔ ¬ tx.Refused node nIndex nHeight vs := by
  cases tx with
  | reward r => exact iff_of_true (r.executeTx_loud node nHeight vs (hindex r rfl)) id
  | registerAccount r => exact iff_of_true (CRegisterAccountTx.executeTx_loud nIndex nHeight vs) id
  | transaction r => exact iff_of_true (CTransaction.executeTx_loud nIndex nFuelRate vs) id
  | registerApp r => exact CRegisterAppTx.executeTx_loud

end Dacrs
