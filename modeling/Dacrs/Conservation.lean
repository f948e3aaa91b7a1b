import Dacrs.ContractData
import Dacrs.Sample

/-!
# Conservation of money

Runs of transactions on one account view, coinbases apart.  `executeTx_moves` says that a
transaction moves the balances by the amounts it names, as exact integers; the amounts of a
transaction add up to minus its fee.  The one exception is a registered contract whose key id
already has a funded account: that account is overwritten (`registerApp_burns`).
`money_conserved` is the law for every step of every run without such a registration.
-/

open Codec (Bytes)

namespace Dacrs

/-! ## The account view stays in order -/

theorem CAccountViewCache.WellKeyed.setKeyId {v : CAccountViewCache} (hv : v.WellKeyed) (r : CRegID)
    (k : CKeyID) : (v.setKeyId r k).WellKeyed := hv

theorem CAccountViewCache.WellKeyed.set {v : CAccountViewCache} (hv : v.WellKeyed) {k : CKeyID}
    {a : CAccount} (ha : a.cKeyID = k) : (v.setAccountKey k a).WellKeyed := by
  subst ha
  exact hv.setAccountKey a

namespace CTransaction

variable {node : Node} {tx : CTransaction} {nHeight : ℤ} {view : CAccountViewCache}
  {a s d' : CAccount} {k : CKeyID}

theorem Transferred.wellKeyed (ht : tx.Transferred node nHeight view a s k d')
    (hv : view.WellKeyed) : ((view.setAccountKey a.cKeyID s).setAccountKey k d').WellKeyed :=
  (hv.set ht.key).set ht.desKey

/-- A contract call after the transfer: the copies the operations made are saved. -/
theorem executeContract_overlay {nFuelRate : Int32} {vs vs' : Views} {alogs : List CAccountLog}
    {dblog : List CScriptDBOperLog} {step : UInt64} (hv : vs.view.WellKeyed)
    (h : tx.executeContract node nHeight nFuelRate vs = .ok (vs', alogs, dblog, step)) :
    ∃ (w : CVmRunEvn.AccountWork) (ops : List CVmOperate) (des : CRegID) (s : CScriptDBViewCache),
      CVmRunEvn.checkOperate node.cfg node.cr vs.view s des ops = true ∧
      CVmRunEvn.opeatorAccount node.cfg node.cr vs.view nHeight ops = some w ∧
      vs'.view.accounts = w.overlay vs.view ∧ vs'.view.WellKeyed := by
  obtain ⟨des, out, view', rel, -, hrun, hsave, -, rfl, -⟩ := executeContract_cases h
  obtain ⟨r, s, -, -, -, -, hcheck, hops, -⟩ := CVmRunEvn.run_cases hrun
  have hover := CVmRunEvn.opeatorAccount_over hv hops
  exact ⟨_, _, des, s, hcheck, hops, (saveContractAccounts_accounts hv hover hsave).1,
    saveContractAccounts_wellKeyed hv hover hsave⟩

end CTransaction

/-- Every transaction keeps accounts under their own key ids. -/
theorem CBaseTransaction.executeTx_wellKeyed {node : Node} {tx : CBaseTransaction}
    {nIndex nHeight : ℤ} {nFuelRate : Int32} {vs : Views} {out : Executed} (hv : vs.view.WellKeyed)
    (h : tx.executeTx node nIndex nHeight nFuelRate vs = .ok out) : out.views.view.WellKeyed := by
  cases tx with
  | reward tx =>
    obtain ⟨r, a, b, -, -, -, hview, -⟩ := CRewardTransaction.executeTx_cases h
    rw [hview]
    exact hv.set rfl
  | registerAccount tx =>
    obtain ⟨pk, a, b, -, ha, hb, hview, -⟩ := CRegisterAccountTx.executeTx_cases h
    have hkey := (CRegisterAccountTx.registerAccount_cases hb).1
    rw [hview]
    exact (hv.setKeyId _ _).set (hkey.trans (hv _ a ha))
  | transaction tx =>
    obtain ⟨view, logs, vs', clogs, dblog, alogs, htrans, htype, hview, -⟩ :=
      CTransaction.executeTx_cases h
    obtain ⟨a, s, k, d', ht, rfl, -⟩ := CTransaction.transfer_wellKeyed hv htrans
    rw [hview]
    unfold CTransaction.executeByType at htype
    split at htype
    · obtain ⟨w, ops, des, s', -, -, -, hkeyed⟩ :=
        CTransaction.executeContract_overlay (ht.wellKeyed hv) htype
      exact hkeyed
    · obtain rfl := congrArg Prod.fst (Except.ok.inj htype)
      exact ht.wellKeyed hv
  | registerApp tx =>
    obtain ⟨a, b, logs, s, ha, hpay, -, -, hview, -⟩ := CRegisterAppTx.executeTx_cases h
    rw [hview]
    exact ((hv.setKeyId _ _).set rfl).set rfl

/-! ## The amounts a transaction names -/

/-- The operations of the contract a transaction calls: accepted by `CheckOperate` and applied by
`OpeatorAccount` to the view after the transfer.  Nothing else has any. -/
def CBaseTransaction.Operates (node : Node) (tx : CBaseTransaction) (nHeight : ℤ)
    (view : CAccountViewCache) (ops : List CVmOperate) : Prop :=
  match tx with
  | transaction tx =>
    match tx.chTxType with
    | .common => ops = []
    | .contract => ∃ v logs s des w, tx.transfer node nHeight view = .ok (v, logs) ∧
        CVmRunEvn.checkOperate node.cfg node.cr v s des ops = true ∧
        CVmRunEvn.opeatorAccount node.cfg node.cr v nHeight ops = some w
  | _ => ops = []

/-- What a transaction adds to the balances it touches, in the order it touches them. -/
def CBaseTransaction.amounts (tx : CBaseTransaction) (ops : List CVmOperate) : List ℤ :=
  match tx with
  | reward _ => []
  | registerAccount tx => [-tx.llFees.toInt]
  | transaction tx =>
    -((tx.ullFees.toNat : ℤ) + tx.ullValues.toNat) :: (tx.ullValues.toNat : ℤ) ::
      ops.map CVmOperate.signed
  | registerApp tx => [-(tx.ullFees.toNat : ℤ)]

/-- `MoneyRange` of the fee, which every `CheckTransction` demands. -/
def CBaseTransaction.FeeInRange (cfg : SysCfg) (tx : CBaseTransaction) : Prop :=
  cfg.moneyRange tx.getFee.toInt64 = true

/-- In range the signed fee of a registration is the unsigned one. -/
theorem CRegisterAccountTx.llFees_toInt {cfg : SysCfg} {tx : CRegisterAccountTx}
    (h : (CBaseTransaction.registerAccount tx).FeeInRange cfg) :
    tx.llFees.toInt = tx.llFees.toUInt64.toNat ∧ 0 ≤ tx.llFees.toInt := by
  unfold CBaseTransaction.FeeInRange SysCfg.moneyRange at h
  simp only [CBaseTransaction.getFee, Bool.and_eq_true, decide_eq_true_eq,
    Int64.toInt64_toUInt64] at h
  refine ⟨?_, h.1⟩
  have hint : tx.llFees.toInt = tx.llFees.toBitVec.toInt := rfl
  have hnat : tx.llFees.toUInt64.toNat = tx.llFees.toBitVec.toNat := rfl
  have hlt := tx.llFees.toBitVec.isLt
  rw [hint, hnat]
  rw [hint, BitVec.toInt_eq_toNat_cond] at h
  rw [BitVec.toInt_eq_toNat_cond]
  split at h <;> split <;> omega

/-- The amounts of a transaction add up to minus its fee. -/
theorem CBaseTransaction.amounts_sum {node : Node} {tx : CBaseTransaction} {nHeight : ℤ}
    {view : CAccountViewCache} {ops : List CVmOperate} (hreward : tx.isCoinBase = false)
    (hfee : tx.FeeInRange node.cfg) (hops : tx.Operates node nHeight view ops) :
    (tx.amounts ops).sum = -(tx.getFee.toNat : ℤ) := by
  cases tx with
  | reward tx => cases hreward
  | registerAccount tx =>
    have hint := (CRegisterAccountTx.llFees_toInt hfee).1
    simp only [amounts, getFee, List.sum_singleton, hint]
  | transaction tx =>
    have hzero : (ops.map CVmOperate.signed).sum = 0 := by
      unfold Operates at hops
      dsimp only at hops
      split at hops
      · rw [hops]
        rfl
      · obtain ⟨v, logs, s, des, w, -, hcheck, -⟩ := hops
        exact CVmRunEvn.checkOperate_sum hcheck
    simp only [amounts, getFee, List.sum_cons, hzero]
    omega
  | registerApp tx => simp only [amounts, getFee, List.sum_singleton]

/-! ## One transaction -/

/-- A registered contract must not find a funded account under its key id, unless that account
is the registrant. -/
def CBaseTransaction.OverwritesNothing (node : Node) (tx : CBaseTransaction) (nIndex nHeight : ℤ)
    (view : CAccountViewCache) : Prop :=
  match tx with
  | registerApp tx => ∀ b, view.accounts.lookup
      (CRegisterAppTx.contractKeyId node.cr (.ofPosition nHeight nIndex)) = some b →
      b.ullValues = 0 ∨ view.getAccount node.cr tx.cRegAcctId = some b
  | _ => True

section
variable {v : CAccountViewCache} {k : CKeyID} {a : CAccount}

/-- No balance exceeds the total. -/
theorem CAccountViewCache.balance_lt {n : ℕ} (h : v.total < n)
    (ha : v.accounts.lookup k = some a) : a.balance < n := by
  have hle := Store.measure_le_total CAccount.balance v.accounts k
  rw [ha, Store.measure_some] at hle
  exact Nat.lt_of_le_of_lt hle h

/-- Saving an account moves its balance. -/
theorem CAccountViewCache.setAccountKey_moves (hlive : a.cKeyID ≠ 0) (d : ℤ)
    (h : (a.balance : ℤ) = Store.measure CAccount.balance (v.accounts.lookup k) + d) :
    Store.Moves CAccount.balance v.accounts [(k, d)] (v.setAccountKey k a).accounts := by
  rw [CAccountViewCache.setAccountKey_accounts, CAccountViewCache.liveAccount_of_ne hlive]
  exact Store.Moves.single k (some a) d h

end

/-- The transfer takes fee and amount from the source and gives the amount to the destination. -/
theorem CTransaction.Transferred.moves {node : Node} {tx : CTransaction} {nHeight : ℤ}
    {view : CAccountViewCache} {a s d' : CAccount} {k : CKeyID}
    (ht : tx.Transferred node nHeight view a s k d')
    (hfee : (CBaseTransaction.transaction tx).FeeInRange node.cfg) (hsmall : view.total < 2 ^ 63) :
    Store.Moves CAccount.balance view.accounts
      [(a.cKeyID, -((tx.ullFees.toNat : ℤ) + tx.ullValues.toNat)), (k, (tx.ullValues.toNat : ℤ))]
      ((view.setAccountKey a.cKeyID s).setAccountKey k d').accounts := by
  have hfees : tx.ullFees.toNat ≤ 2 * 10 ^ 18 := CAccount.toNat_le_of_isMoneyOverflow node.cfg hfee
  have hvalues : tx.ullValues.toNat ≤ 2 * 10 ^ 18 :=
    CAccount.toNat_le_of_isMoneyOverflow node.cfg (CAccount.operateAccount_cases node.cfg ht.add).1
  have hsum : (tx.ullFees + tx.ullValues).toNat = tx.ullFees.toNat + tx.ullValues.toNat := by
    rw [UInt64.toNat_add]
    omega
  have hminus : s.balance + (tx.ullFees + tx.ullValues).toNat = a.balance :=
    CAccount.operateAccount_minus node.cfg ht.minus
  have hslive : s.cKeyID ≠ 0 := by
    rw [ht.key]
    exact view.live _ a ht.stored
  have h1 : Store.Moves CAccount.balance view.accounts
      [(a.cKeyID, -((tx.ullFees.toNat : ℤ) + tx.ullValues.toNat))]
      (view.setAccountKey a.cKeyID s).accounts := by
    refine CAccountViewCache.setAccountKey_moves hslive _ ?_
    rw [ht.stored, Store.measure_some]
    omega
  have htotal := h1.total
  have hsmall₁ : (view.setAccountKey a.cKeyID s).total < 2 ^ 63 := by
    have hlt : Store.total CAccount.balance view.accounts < 2 ^ 63 := hsmall
    have heq : (view.setAccountKey a.cKeyID s).total
        = Store.total CAccount.balance (view.setAccountKey a.cKeyID s).accounts := rfl
    simp only [List.map_cons, List.map_nil, List.sum_singleton] at htotal
    omega
  set d := ((view.setAccountKey a.cKeyID s).accounts.lookup k).getD (CAccount.fresh k) with hd
  have hdbal : d.balance
      = Store.measure CAccount.balance ((view.setAccountKey a.cKeyID s).accounts.lookup k) := by
    rw [hd]
    cases (view.setAccountKey a.cKeyID s).accounts.lookup k <;> rfl
  have hdsmall : d.balance < 2 ^ 63 := by
    rw [hdbal]
    have hle := Store.measure_le_total CAccount.balance (view.setAccountKey a.cKeyID s).accounts k
    exact Nat.lt_of_le_of_lt hle hsmall₁
  have hadd : d'.balance = d.balance + tx.ullValues.toNat :=
    CAccount.operateAccount_add node.cfg ht.add hdsmall
  have hdlive : d'.cKeyID ≠ 0 := by
    rw [(CAccount.operateAccount_sameIdentity node.cfg ht.add).cKeyID]
    exact CAccount.operateAccount_key_ne node.cfg ht.add
  have h2 : Store.Moves CAccount.balance (view.setAccountKey a.cKeyID s).accounts
      [(k, (tx.ullValues.toNat : ℤ))]
      ((view.setAccountKey a.cKeyID s).setAccountKey k d').accounts := by
    refine CAccountViewCache.setAccountKey_moves hdlive _ ?_
    rw [← hdbal]
    omega
  exact h1.append h2

namespace CBaseTransaction

variable {node : Node} {tx : CBaseTransaction} {nIndex nHeight : ℤ} {nFuelRate : Int32} {vs : Views}
  {out : Executed}

/-- A transaction moves the balances by the amounts it names. -/
theorem executeTx_moves (hreward : tx.isCoinBase = false) (hv : vs.view.WellKeyed)
    (hsmall : vs.view.total < 2 ^ 63) (hfee : tx.FeeInRange node.cfg)
    (hover : tx.OverwritesNothing node nIndex nHeight vs.view)
    (h : tx.executeTx node nIndex nHeight nFuelRate vs = .ok out) :
    ∃ ops ms, tx.Operates node nHeight vs.view ops ∧ ms.map Prod.snd = tx.amounts ops ∧
      Store.Moves CAccount.balance vs.view.accounts ms out.views.view.accounts := by
  cases tx with
  | reward tx => cases hreward
  | registerAccount tx =>
    obtain ⟨pk, a, b, -, ha, hb, hview, -⟩ := CRegisterAccountTx.executeTx_cases h
    obtain ⟨hkey, hval, -⟩ := CRegisterAccountTx.registerAccount_cases hb
    obtain ⟨hint, hnonneg⟩ := CRegisterAccountTx.llFees_toInt hfee
    have hlive : b.cKeyID ≠ 0 := by
      rw [hkey]
      exact vs.view.live _ a ha
    refine ⟨[], [(pk.getKeyID node.cr, -tx.llFees.toInt)], rfl, rfl, ?_⟩
    rw [hview]
    refine CAccountViewCache.setAccountKey_moves hlive _ ?_
    have hpaid : b.balance + tx.llFees.toUInt64.toNat = a.balance := by
      refine Eq.trans ?_ hval
      split
      · rfl
      · next hpos =>
        -- no fee: nothing is taken
        have hzero : tx.llFees.toInt = 0 := by
          have hle := Int64.le_iff_toInt_le.mp (Int64.not_lt.mp hpos)
          have h0 : (0 : Int64).toInt = 0 := rfl
          omega
        have hnat : tx.llFees.toUInt64.toNat = 0 := by omega
        rw [hnat]
        rfl
    rw [ha, Store.measure_some]
    omega
  | transaction tx =>
    obtain ⟨view, logs, vs', clogs, dblog, alogs, htrans, htype, hview, -⟩ :=
      CTransaction.executeTx_cases h
    obtain ⟨a, s, k, d', ht, rfl, rfl⟩ := CTransaction.transfer_wellKeyed hv htrans
    have hmoves := ht.moves hfee hsmall
    have hv' := ht.wellKeyed hv
    rw [hview]
    unfold CTransaction.executeByType at htype
    cases hct : tx.chTxType with
    | common =>
      rw [hct] at htype
      obtain rfl := congrArg Prod.fst (Except.ok.inj htype)
      refine ⟨[], _, ?_, rfl, hmoves⟩
      simp only [Operates, hct]
    | contract =>
      rw [hct] at htype
      obtain ⟨w, ops, des, s', hcheck, hops, hacc, -⟩ :=
        CTransaction.executeContract_overlay hv' htype
      -- the transfer keeps the total below the bound
      have hbelow : ∀ j x, ((vs.view.setAccountKey a.cKeyID s).setAccountKey k d').accounts.lookup j
          = some x → x.balance < 2 ^ 63 := by
        intro j x hx
        refine CAccountViewCache.balance_lt ?_ hx
        have htotal := hmoves.total
        have hlt : Store.total CAccount.balance vs.view.accounts < 2 ^ 63 := hsmall
        show Store.total CAccount.balance _ < 2 ^ 63
        simp only [List.map_cons, List.map_nil, List.sum_cons, List.sum_nil] at htotal
        omega
      obtain ⟨ms, hms, hmoves'⟩ := CVmRunEvn.opeatorAccount_moves hv' hbelow hops
      rw [← hacc] at hmoves'
      refine ⟨ops, _, ?_, ?_, hmoves.append hmoves'⟩
      · simp only [Operates, hct]
        exact ⟨_, _, s', des, w, htrans, hcheck, hops⟩
      · rw [List.map_append, hms]
        rfl
  | registerApp tx =>
    obtain ⟨a, b, logs, s, ha, hpay, -, -, hview, -⟩ := CRegisterAppTx.executeTx_cases h
    obtain ⟨hid, hval, -⟩ := CRegisterAppTx.payFee_cases hpay
    have hstored := hv.getAccount node.cr ha
    have hlive : b.cKeyID ≠ 0 := by
      rw [hid.cKeyID]
      exact vs.view.live _ a hstored
    have hpaid : b.balance + tx.ullFees.toNat = a.balance := hval
    refine ⟨[], [(b.cKeyID, -(tx.ullFees.toNat : ℤ))], rfl, rfl, ?_⟩
    rw [hview, CAccountViewCache.setAccountKey_accounts, CAccountViewCache.liveAccount_of_ne hlive,
      CAccountViewCache.saveAccountInfo, CAccountViewCache.setAccountKey_accounts,
      CAccountViewCache.setKeyId_accounts]
    set c := CRegisterAppTx.contractKeyId node.cr (.ofPosition nHeight nIndex) with hc
    by_cases hbc : b.cKeyID = c
    · -- the registrant's own account is written last
      rw [hbc, Store.put_put]
      refine Store.Moves.single c (some b) _ ?_
      rw [← hbc, hid.cKeyID, hstored, Store.measure_some, Store.measure_some]
      omega
    · have hempty : Store.measure CAccount.balance (vs.view.accounts.lookup c) = 0 := by
        cases hlook : vs.view.accounts.lookup c with
        | none => rfl
        | some x =>
          rcases hover x hlook with h0 | hsame
          · rw [Store.measure_some, CAccount.balance, h0]
            rfl
          · obtain rfl := Option.some.inj (ha.symm.trans hsame)
            exact absurd (hid.cKeyID.trans (hv c a hlook)) hbc
      have hnew : Store.measure CAccount.balance (CAccountViewCache.liveAccount
          (CRegisterAppTx.contractAccount node.cr (.ofPosition nHeight nIndex))) = 0 := by
        unfold CAccountViewCache.liveAccount
        split <;> rfl
      refine Store.Moves.move b.cKeyID (some b) _ (Store.Moves.nil.touch c _ ?_) ?_
      · rw [hnew, hempty]
      · rw [Store.lookup_put_ne _ _ hbc, hid.cKeyID, hstored, Store.measure_some,
          Store.measure_some]
        omega

/-- So its fee is what all accounts together lose. -/
theorem executeTx_total (hreward : tx.isCoinBase = false) (hv : vs.view.WellKeyed)
    (hsmall : vs.view.total < 2 ^ 63) (hfee : tx.FeeInRange node.cfg)
    (hover : tx.OverwritesNothing node nIndex nHeight vs.view)
    (h : tx.executeTx node nIndex nHeight nFuelRate vs = .ok out) :
    out.views.view.total + tx.getFee.toNat = vs.view.total := by
  obtain ⟨ops, ms, hops, hms, hmoves⟩ := executeTx_moves hreward hv hsmall hfee hover h
  have htotal := hmoves.total
  rw [hms, amounts_sum hreward hfee hops] at htotal
  have h1 : out.views.view.total = Store.total CAccount.balance out.views.view.accounts := rfl
  have h2 : vs.view.total = Store.total CAccount.balance vs.view.accounts := rfl
  omega

end CBaseTransaction

/-! ## Runs -/

/-- One transaction as a node executes it. -/
structure TxStep where
  node : Node
  tx : CBaseTransaction
  nIndex : ℤ
  nHeight : ℤ
  nFuelRate : Int32

namespace TxStep

def execute (st : TxStep) (vs : Views) : Exec Executed :=
  st.tx.executeTx st.node st.nIndex st.nHeight st.nFuelRate vs

/-- No coinbase, a fee in range, and no funded account under the key id of a new contract. -/
structure Conserving (st : TxStep) (vs : Views) : Prop where
  noReward : st.tx.isCoinBase = false
  fee : st.tx.FeeInRange st.node.cfg
  overwrites : st.tx.OverwritesNothing st.node st.nIndex st.nHeight vs.view

end TxStep

/-- A run of transactions that succeed, each of them conserving in the state it finds. -/
inductive ConservingRun (vs : Views) : List TxStep → Views → Prop where
  | nil : ConservingRun vs [] vs
  | snoc {steps : List TxStep} {ws : Views} {out : Executed} (st : TxStep)
      (h : ConservingRun vs steps ws) (hcond : st.Conserving ws) (hexec : st.execute ws = .ok out) :
      ConservingRun vs (steps ++ [st]) out.views

/-- The fees of a run. -/
def totalFee (steps : List TxStep) : ℕ := (steps.map fun st => st.tx.getFee.toNat).sum

theorem ConservingRun.total {vs ws : Views} {steps : List TxStep} (hv : vs.view.WellKeyed)
    (hsmall : vs.view.total < 2 ^ 63) (h : ConservingRun vs steps ws) :
    ws.view.WellKeyed ∧ ws.view.total + totalFee steps = vs.view.total := by
  induction h with
  | nil => exact ⟨hv, rfl⟩
  | snoc st _ hcond hexec ih =>
    obtain ⟨hkeyed, htotal⟩ := ih
    have hstep := CBaseTransaction.executeTx_total hcond.noReward hkeyed (by omega) hcond.fee
      hcond.overwrites hexec
    refine ⟨CBaseTransaction.executeTx_wellKeyed hkeyed hexec, ?_⟩
    simp only [totalFee, List.map_append, List.map_cons, List.map_nil, List.sum_append,
      List.sum_singleton] at htotal ⊢
    omega

/-- Whatever has been executed before, the next transaction moves the balances by exactly the
amounts it names, and all accounts together lose exactly its fee. -/
theorem money_conserved (vs ws : Views) (steps : List TxStep) (st : TxStep) (out : Executed)
    (hv : vs.view.WellKeyed) (hsmall : vs.view.total < 2 ^ 63) (hrun : ConservingRun vs steps ws)
    (hcond : st.Conserving ws) (hexec : st.execute ws = .ok out) :
    out.views.view.total + st.tx.getFee.toNat = ws.view.total ∧
      ws.view.total + totalFee steps = vs.view.total ∧
      ∃ ops ms, st.tx.Operates st.node st.nHeight ws.view ops ∧
        ms.map Prod.snd = st.tx.amounts ops ∧
        Store.Moves CAccount.balance ws.view.accounts ms out.views.view.accounts := by
  obtain ⟨hkeyed, htotal⟩ := hrun.total hv hsmall
  have hsmall' : ws.view.total < 2 ^ 63 := by omega
  exact ⟨CBaseTransaction.executeTx_total hcond.noReward hkeyed hsmall' hcond.fee hcond.overwrites
      hexec, htotal,
    CBaseTransaction.executeTx_moves hcond.noReward hkeyed hsmall' hcond.fee hcond.overwrites hexec⟩

/-! ## A contract registered over a funded address -/

/-- Registers a contract for a fee of one coin. -/
def sampleRegistration : TxStep where
  node := Sample.node
  tx := .registerApp {
    nVersion := 2
    nValidHeight := 100
    cRegAcctId := .regID ⟨50, 1⟩
    vchScript := Sample.programBytes
    ullFees := 100000000
    vchSignature := [] }
  nIndex := 1
  nHeight := 100
  nFuelRate := 100

/-- The registrant with ten coins, and the accounts already under the contract's key id. -/
def sampleHoldings (existing : List CAccount) : Views where
  view := Sample.viewOf (Sample.holder :: existing) [(⟨50, 1⟩, Sample.keyId 5)] 0
  scriptDB := Sample.scriptsOf []

/-- 7 units under the key id of the contract are burnt on top of the fee. -/
theorem registerApp_burns : ∃ out,
    let vs := sampleHoldings
      [{ CAccount.fresh (CRegisterAppTx.contractKeyId Sample.crypto ⟨100, 1⟩) with ullValues := 7 }]
    sampleRegistration.execute vs = .ok out ∧ vs.view.total = 1000000007 ∧
    sampleRegistration.tx.getFee.toNat = 100000000 ∧ out.views.view.total = 900000000 :=
  ⟨_, rfl, by decide, by decide, by decide⟩

/-- Without them only the fee is gone. -/
theorem money_conserved_registration : ∃ out,
    sampleRegistration.execute (sampleHoldings []) = .ok out ∧
    out.views.view.total + sampleRegistration.tx.getFee.toNat = (sampleHoldings []).view.total := by
  have hnone : (sampleHoldings []).view.accounts.lookup
      (CRegisterAppTx.contractKeyId Sample.crypto ⟨100, 1⟩) = none := by decide
  refine ⟨_, rfl, (money_conserved (sampleHoldings []) (sampleHoldings []) [] sampleRegistration _
    (Sample.viewOf_wellKeyed _ _ _) (by decide) .nil ⟨rfl, rfl, fun b hb => ?_⟩ rfl).1⟩
  have hsome : none = some b := hnone.symm.trans hb
  cases hsome

end Dacrs
