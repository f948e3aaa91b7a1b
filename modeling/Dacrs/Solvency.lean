import Dacrs.AppUsers
import Dacrs.ContractAuthority

/-!
# Contracts that check their app accounts

`CheckAppAcctOperate` compares what app users gain with what the contract's account gains, in
signed 64-bit arithmetic; the operations themselves read a negative amount as 2^64 more.
`solvency_iff` says when a run of such a contract moves the funds of its users by exactly what was
paid in less what the contract paid out, with every amount below 2^63.
-/

open Codec (Bytes)

namespace Dacrs

/-! ## Checked signed arithmetic -/

theorem safeAddInt_eq_some {a b c : Int64} (h : safeAddInt a b = some c) :
    c.toInt = a.toInt + b.toInt := by
  unfold safeAddInt at h
  split at h
  · next hrange =>
    obtain rfl := Option.some.inj h
    rw [Int64.toInt_add, Int.bmod_def]
    omega
  · cases h

theorem safeSubtractInt_eq_some {a b c : Int64} (h : safeSubtractInt a b = some c) :
    c.toInt = a.toInt - b.toInt := by
  unfold safeSubtractInt at h
  split at h
  · next hrange =>
    obtain rfl := Option.some.inj h
    rw [Int64.toInt_sub, Int.bmod_def]
    omega
  · cases h

/-- The cast to `int64_t`. -/
theorem toInt64_cases (v : UInt64) :
    (v.toNat < 2 ^ 63 ∧ v.toInt64.toInt = v.toNat) ∨
      (2 ^ 63 ≤ v.toNat ∧ v.toInt64.toInt = v.toNat - 2 ^ 64) := by
  have hint : v.toInt64.toInt = v.toBitVec.toInt := rfl
  have hnat : v.toNat = v.toBitVec.toNat := rfl
  have hlt := v.toBitVec.isLt
  rw [hint, hnat, BitVec.toInt_eq_toNat_cond]
  split <;> omega

namespace CVmRunEvn

section
variable {cfg : SysCfg} {cr : Crypto} {view : CAccountViewCache} {des : CRegID}

/-! ## What CheckAppAcctOperate compares -/

variable (cfg cr view des) in
/-- An operation that takes money from the contract's own account. -/
def Pays (op : CVmOperate) : Prop :=
  getAccountID cfg cr view op = des.getVec6 ∧ op.operType = .minusFree

instance (op : CVmOperate) : Decidable (Pays cfg cr view des op) :=
  inferInstanceAs (Decidable (_ ∧ _))

variable (cfg cr view des) in
/-- What the contract's account pays out, exactly. -/
def paidOut (ops : List CVmOperate) : ℕ :=
  (ops.map fun op => if Pays cfg cr view des op then op.arruchMoney.toNat else 0).sum

theorem appSum_spec {sums sums' : Int64 × Int64} {op : CAppFundOperate}
    (h : appSum sums op = some sums') :
    sums'.1.toInt - sums'.2.toInt = sums.1.toInt - sums.2.toInt + op.signed := by
  unfold appSum at h
  unfold CAppFundOperate.signed
  split at h
  · next hadd =>
    obtain ⟨v, hv, rfl⟩ := Option.map_eq_some_iff.mp h
    have := safeAddInt_eq_some hv
    rw [if_pos hadd]
    dsimp only
    omega
  · next hadd =>
    split at h
    · next hsub =>
      obtain ⟨v, hv, rfl⟩ := Option.map_eq_some_iff.mp h
      have := safeAddInt_eq_some hv
      rw [if_neg hadd, if_pos hsub]
      dsimp only
      omega
    · next hsub =>
      obtain rfl := Option.some.inj h
      rw [if_neg hadd, if_neg hsub, add_zero]

theorem appSums_spec {ops : List CAppFundOperate} {sums sums' : Int64 × Int64}
    (h : ops.foldlM appSum sums = some sums') :
    sums'.1.toInt - sums'.2.toInt
      = sums.1.toInt - sums.2.toInt + (ops.map CAppFundOperate.signed).sum := by
  induction ops generalizing sums with
  | nil =>
    obtain rfl := Option.some.inj h
    simp
  | cons op ops ih =>
    rw [List.foldlM_cons, Option.bind_eq_bind, Option.bind_eq_some_iff] at h
    obtain ⟨t, h1, h2⟩ := h
    have hone := appSum_spec h1
    have hrest := ih h2
    rw [List.map_cons, List.sum_cons]
    omega

theorem sysContractAcct_spec {ops : List CVmOperate} {total total' : UInt64}
    (h : ops.foldlM (sysContractAcct cfg cr view des) total = some total') :
    total'.toNat = total.toNat + paidOut cfg cr view des ops := by
  induction ops generalizing total with
  | nil =>
    obtain rfl := Option.some.inj h
    simp [paidOut]
  | cons op ops ih =>
    rw [List.foldlM_cons, Option.bind_eq_bind, Option.bind_eq_some_iff] at h
    obtain ⟨t, h1, h2⟩ := h
    have hrest := ih h2
    have hcons : paidOut cfg cr view des (op :: ops)
        = (if Pays cfg cr view des op then op.arruchMoney.toNat else 0)
          + paidOut cfg cr view des ops := List.sum_cons
    rw [hcons]
    replace h1 : (if Pays cfg cr view des op then
        if op.arruchMoney.toInt64 < 0 then none else safeAdd op.arruchMoney total
      else some total) = some t := h1
    by_cases hpays : Pays cfg cr view des op
    · rw [if_pos hpays] at h1 ⊢
      split at h1
      · cases h1
      · have := safeAdd_eq_some h1
        omega
    · rw [if_neg hpays] at h1 ⊢
      obtain rfl := Option.some.inj h1
      omega

/-- A successful check, in exact numbers. -/
theorem checkAppAcctOperate_spec {ullValues : UInt64} {mapOp : List (Bytes × List CAppFundOperate)}
    {ops : List CVmOperate} (h : checkAppAcctOperate cfg cr view des ullValues mapOp ops = true) :
    ∃ paid : UInt64, paid.toNat = paidOut cfg cr view des ops ∧
      ((mapOp.flatMap Prod.snd).map CAppFundOperate.signed).sum
        = ullValues.toInt64.toInt - paid.toInt64.toInt := by
  unfold checkAppAcctOperate at h
  dsimp only at h
  rw [Option.getD_eq_iff] at h
  rcases h with h | ⟨-, h⟩
  · simp only [Option.bind_eq_bind, Option.bind_eq_some_iff, Option.pure_def, Option.some.injEq] at h
    obtain ⟨sums, hsums, sumValue, hdiff, paid, hpaid, sys, hsys, heq⟩ := h
    have h1 := appSums_spec hsums
    have h2 := safeSubtractInt_eq_some hdiff
    have h3 := sysContractAcct_spec hpaid
    have h4 := safeSubtractInt_eq_some hsys
    obtain rfl := eq_of_beq heq
    refine ⟨paid, by simpa using h3, ?_⟩
    have hzero : ((0, 0) : Int64 × Int64).1.toInt - ((0, 0) : Int64 × Int64).2.toInt = 0 := rfl
    omega
  · cases h

end

/-! ## The users of a run -/

open CScriptDBViewCache (scriptAccKey)

section
variable {node : Node} {tx : CTransaction} {des : CRegID} {view : CAccountViewCache}
  {s : CScriptDBViewCache} {nHeight : ℤ} {ullBurnFactor : UInt64} {script : CVmScript}
  {type : ScriptType} {r : VmResult} {out : Outcome}

variable (node tx des view s nHeight ullBurnFactor script type r) in
/-- The interpreter has run the contract's code and left `r` behind. -/
def Interpreted : Prop :=
  intial s des tx = .ok (script, type) ∧
    interpret node (vmInput node tx view s nHeight ullBurnFactor script type) = .ok r

variable (des s) in
/-- The record of the user has room for what the operations add. -/
def Room (item : Bytes × List CAppFundOperate) : Prop :=
  item.1.length ≤ maxSize ∧ frozenCount s des item.1 + item.2.length ≤ maxSize

/-- What a run has checked and done, with what the interpreter left behind. -/
theorem run_interpreted (hr : Interpreted node tx des view s nHeight ullBurnFactor script type r)
    (hrun : run node tx des view s nHeight ullBurnFactor = .ok out) :
    ∃ s₁ dblog app, runDb des.getVec6 s r.dbOps = .ok (s₁, dblog) ∧
      checkOperate node.cfg node.cr view s₁ des r.output = true ∧
      opeatorAccount node.cfg node.cr view nHeight r.output = some out.accounts ∧
      opeatorAppAccount node.chainActive des nHeight s₁ (mapAppOperate r.appOperate) = .ok app ∧
      out.scriptDB = (writeOutPut node.cfg ((CBaseTransaction.transaction tx).getHash node.cr.Hash)
        r.output app).1 ∧
      (checksAccount type script r = true → checkAppAcctOperate node.cfg node.cr view des
        tx.ullValues (mapAppOperate r.appOperate) r.output = true) := by
  obtain ⟨r', s₁, dblog, app, mapOp, hdb, hcheck, hacc, happ, hscript, -, -, -, -, rfl, script',
    type', hinit, hvm, hchecked⟩ := run_cases hrun
  obtain ⟨rfl, rfl⟩ := Prod.mk.inj (Except.ok.inj (hr.1.symm.trans hinit))
  obtain rfl := Except.ok.inj (hr.2.symm.trans hvm)
  refine ⟨s₁, dblog, app, hdb, hcheck, hacc, happ, hscript, fun hchecks => ?_⟩
  rcases hchecked with hno | hyes
  · rw [hno] at hchecks
    cases hchecks
  · exact hyes

/-- What a run does to app users. -/
theorem run_users (hr : Interpreted node tx des view s nHeight ullBurnFactor script type r)
    (hrun : run node tx des view s nHeight ullBurnFactor = .ok out)
    (hown : ∀ item ∈ mapAppOperate r.appOperate, OwnRecord s des item.1)
    (hroom : ∀ item ∈ mapAppOperate r.appOperate, Room des s item) :
    (∀ u, (∀ item ∈ mapAppOperate r.appOperate, u ≠ item.1) →
        appFunds out.scriptDB des u = appFunds s des u) ∧
      ∀ item ∈ mapAppOperate r.appOperate, ∃ a b,
        loadedAccount node.chainActive s des nHeight item.1 = .ok a ∧
        item.2.foldlM CAppUserAccout.operateOne a = .ok b ∧
        a.funds = appFunds s des item.1 ∧ b.funds = appFunds out.scriptDB des item.1 := by
  obtain ⟨s₁, dblog, app, hdb, -, -, happ, hscript, -⟩ := run_interpreted hr hrun
  have hstart : ∀ u, s₁.getData (scriptAccKey des.getVec6 u)
      = s.getData (scriptAccKey des.getVec6 u) := fun u => runDb_getData rfl hdb
  have hend : ∀ u, out.scriptDB.getData (scriptAccKey des.getVec6 u)
      = app.scriptDB.getData (scriptAccKey des.getVec6 u) := by
    intro u
    rw [hscript]
    exact writeOutPut_getData rfl
  have hown₁ : ∀ item ∈ mapAppOperate r.appOperate, OwnRecord s₁ des item.1 := by
    intro item hitem a ha
    rw [getScriptAcc_congr (hstart item.1)] at ha
    exact hown item hitem a ha
  obtain ⟨hframe, hall⟩ := opeatorAppAccount_users (mapAppOperate_nodup _) hown₁ happ
  constructor
  · intro u hu
    unfold appFunds
    rw [getScriptAcc_congr ((hend u).trans ((hframe _ ?_).trans (hstart u)))]
    intro item hitem he
    exact hu item hitem (scriptAccKey_inj he)
  · intro item hitem
    obtain ⟨a, b, hload, hop, hdata⟩ := hall item hitem
    rw [loadedAccount_congr (hstart item.1)] at hload
    obtain ⟨hid, hfunds, hslots, hcount⟩ := loadedAccount_cases (hown item hitem) hload
    obtain ⟨hlen, hsum⟩ := hroom item hitem
    have hfits : b.Fits := by
      refine CAppUserAccout.Fits.operate ?_ ?_ hslots
        (CAppUserAccout.foldlM_operateOne_user hop) hop
      · rw [hid]
        exact hlen
      · omega
    refine ⟨a, b, hload, hop, hfunds, (appFunds_of_record hfits ?_).symm⟩
    rw [hend, hdata]

/-! ## What the contract's account holds -/

variable (des view) in
/-- The balance of the contract's account. -/
def contractHeld (accounts : Store CKeyID CAccount) : ℕ :=
  match view.keyIds.lookup des with
  | some k => Store.measure CAccount.balance (accounts.lookup k)
  | none => 0

section
variable {cfg : SysCfg} {cr : Crypto} {nCurHeight : ℤ} {w w' : AccountWork} {k : CKeyID}

/-- An accepted operation takes from the contract's account what it pays out, and no more. -/
theorem opeatorAccountOne_held (hv : view.WellKeyed) (hw : w.Over view) {op : CVmOperate}
    (hallowed : op.operType = .addFree ∨
      op.operType = .minusFree ∧ CRegID.ofVec6 (getAccountID cfg cr view op) = some des)
    (h : opeatorAccountOne cfg cr view nCurHeight w op = some w')
    (hsmall : Store.measure CAccount.balance ((w.overlay view).lookup k) < 2 ^ 63) :
    Store.measure CAccount.balance ((w'.overlay view).lookup k) < 2 ^ 63 ∧
      Store.measure CAccount.balance ((w.overlay view).lookup k)
        ≤ Store.measure CAccount.balance ((w'.overlay view).lookup k)
          + if Pays cfg cr view des op then op.arruchMoney.toNat else 0 := by
  obtain ⟨j, old, acct, -, -, -, hbal, hop, rfl⟩ := opeatorAccountOne_copy hv h hw
  have hover : AccountWork.overlay ⟨w.rawAccont.put j (some acct), w.newAccont ++ [j]⟩ view
      = (w.overlay view).put j (some acct) := Store.put_union w.rawAccont view.accounts j acct
  rw [hover, Store.lookup_put]
  by_cases hkj : k = j
  · rw [if_pos hkj, Store.measure_some]
    rw [hkj, ← hbal] at hsmall ⊢
    obtain ⟨hexact, hbelow⟩ := CAccount.operateAccount_exact cfg hop hsmall
    refine ⟨hbelow, ?_⟩
    rcases hallowed with hadd | ⟨hminus, hid⟩
    · rw [hadd] at hexact
      have hsigned : EmOperType.addFree.signed op.arruchMoney = op.arruchMoney.toNat := rfl
      omega
    · have hpays : Pays cfg cr view des op := ⟨(CRegID.getVec6_ofVec6 hid).symm, hminus⟩
      rw [if_pos hpays]
      rw [hminus] at hexact
      have hsigned : EmOperType.minusFree.signed op.arruchMoney = -op.arruchMoney.toNat := rfl
      omega
  · rw [if_neg hkj]
    exact ⟨hsmall, Nat.le_add_right _ _⟩

/-- So does a list of them. -/
theorem opeatorAccounts_held (hv : view.WellKeyed) (hw : w.Over view) {ops : List CVmOperate}
    (hallowed : ∀ op ∈ ops, op.operType = .addFree ∨
      op.operType = .minusFree ∧ CRegID.ofVec6 (getAccountID cfg cr view op) = some des)
    (h : ops.foldlM (opeatorAccountOne cfg cr view nCurHeight) w = some w')
    (hsmall : Store.measure CAccount.balance ((w.overlay view).lookup k) < 2 ^ 63) :
    Store.measure CAccount.balance ((w.overlay view).lookup k)
      ≤ Store.measure CAccount.balance ((w'.overlay view).lookup k)
        + paidOut cfg cr view des ops := by
  induction ops generalizing w with
  | nil =>
    obtain rfl := Option.some.inj h
    exact Nat.le_add_right _ _
  | cons op ops ih =>
    rw [List.foldlM_cons, Option.bind_eq_bind, Option.bind_eq_some_iff] at h
    obtain ⟨w₁, h1, h2⟩ := h
    obtain ⟨hsmall₁, hone⟩ :=
      opeatorAccountOne_held hv hw (hallowed op List.mem_cons_self) h1 hsmall
    have hrest := ih (opeatorAccountOne_over hv h1 hw)
      (fun o ho => hallowed o (List.mem_cons_of_mem op ho)) h2 hsmall₁
    have hcons : paidOut cfg cr view des (op :: ops)
        = (if Pays cfg cr view des op then op.arruchMoney.toNat else 0)
          + paidOut cfg cr view des ops := List.sum_cons
    omega

theorem contractHeld_le (hv : view.WellKeyed) {s : CScriptDBViewCache} {ops : List CVmOperate}
    (hcheck : checkOperate cfg cr view s des ops = true)
    (h : opeatorAccount cfg cr view nCurHeight ops = some w)
    (hsmall : contractHeld des view view.accounts < 2 ^ 63) :
    contractHeld des view view.accounts
      ≤ contractHeld des view (w.overlay view) + paidOut cfg cr view des ops := by
  have hbase : AccountWork.overlay ⟨∅, []⟩ view = view.accounts := Finmap.empty_union
  unfold contractHeld at hsmall ⊢
  cases hk : view.keyIds.lookup des with
  | none => exact Nat.zero_le _
  | some k =>
    rw [hk] at hsmall
    dsimp only at hsmall ⊢
    rw [← hbase] at hsmall ⊢
    exact opeatorAccounts_held hv (.empty view) (fun op ho => checkOperate_mem hcheck ho) h hsmall

end

/-! ## What the users gain together -/

/-- The gains of the users add up to the operations' sum, and to more exactly when a negative amount
was not carried out. -/
theorem gains_sum {mapOp : List (Bytes × List CAppFundOperate)} (gain : Bytes → ℤ)
    (h : ∀ item ∈ mapOp, ∃ x : ℕ,
      gain item.1 = (item.2.map CAppFundOperate.signed).sum + x ∧
        (x = 0 ↔ ∀ op ∈ item.2, 0 ≤ op.llMoney.toInt)) :
    ∃ x : ℕ, (mapOp.map fun item => gain item.1).sum
        = ((mapOp.flatMap Prod.snd).map CAppFundOperate.signed).sum + x ∧
      (x = 0 ↔ ∀ item ∈ mapOp, ∀ op ∈ item.2, 0 ≤ op.llMoney.toInt) := by
  induction mapOp with
  | nil => exact ⟨0, by simp, by simp⟩
  | cons item mapOp ih =>
    obtain ⟨x, hx, hxz⟩ := h item List.mem_cons_self
    obtain ⟨y, hy, hyz⟩ := ih fun i hi => h i (List.mem_cons_of_mem item hi)
    refine ⟨x + y, ?_, ?_⟩
    · rw [List.map_cons, List.sum_cons, hx, hy, List.flatMap_cons, List.map_append, List.sum_append]
      push_cast
      ring
    · rw [Nat.add_eq_zero_iff, hxz, hyz, List.forall_mem_cons]

/-- Only the users of the map gain anything. -/
theorem sum_users {mapOp : List (Bytes × List CAppFundOperate)} (gain : Bytes → ℤ)
    (hkeys : (mapOp.map Prod.fst).Nodup) (hframe : ∀ u, (∀ item ∈ mapOp, u ≠ item.1) → gain u = 0)
    {users : Finset Bytes} (husers : ∀ item ∈ mapOp, item.1 ∈ users) :
    ∑ u ∈ users, gain u = (mapOp.map fun item => gain item.1).sum := by
  have hsub : (mapOp.map Prod.fst).toFinset ⊆ users := by
    intro u hu
    obtain ⟨item, hitem, rfl⟩ := List.mem_map.mp (List.mem_toFinset.mp hu)
    exact husers item hitem
  have hzero : ∀ u ∈ users, u ∉ (mapOp.map Prod.fst).toFinset → gain u = 0 := by
    intro u _ hu
    refine hframe u fun item hitem he => hu ?_
    rw [he]
    exact List.mem_toFinset.mpr (List.mem_map_of_mem hitem)
  rw [← Finset.sum_subset hsub hzero, List.sum_toFinset gain hkeys, List.map_map]
  rfl

/-! ## Solvency -/

variable (node tx des view s nHeight r out) in
/-- The funds of the app users stay below 2^63 and move by what was paid in less what the contract
paid out, so that the contract's account goes on covering them. -/
structure MovesFunds : Prop where
  stays : ∀ item ∈ mapAppOperate r.appOperate, ∀ a,
    loadedAccount node.chainActive s des nHeight item.1 = .ok a → a.Stays item.2
  moves : ∀ users : Finset Bytes, (∀ item ∈ mapAppOperate r.appOperate, item.1 ∈ users) →
    (∑ u ∈ users, (appFunds out.scriptDB des u : ℤ))
      = ∑ u ∈ users, (appFunds s des u : ℤ) + tx.ullValues.toNat
        - paidOut node.cfg node.cr view des r.output
  covered : ∀ users : Finset Bytes, (∀ item ∈ mapAppOperate r.appOperate, item.1 ∈ users) →
    ∑ u ∈ users, appFunds s des u + tx.ullValues.toNat ≤ contractHeld des view view.accounts →
    ∑ u ∈ users, appFunds out.scriptDB des u
      ≤ contractHeld des view (out.accounts.overlay view)

variable (node des view s nHeight r) in
/-- No amount is negative, and none of the exact ones needs the 64th bit. -/
structure AmountsFit : Prop where
  nonneg : ∀ item ∈ mapAppOperate r.appOperate, ∀ op ∈ item.2, 0 ≤ op.llMoney.toInt
  within : ∀ item ∈ mapAppOperate r.appOperate, ∀ a,
    loadedAccount node.chainActive s des nHeight item.1 = .ok a →
    CAppUserAccout.Within a.amounts item.2
  paid : paidOut node.cfg node.cr view des r.output < 2 ^ 63

end

/-- A contract that checks its app accounts moves their funds as it should exactly when its amounts
fit. -/
theorem solvency_iff (node : Node) (tx : CTransaction) (des : CRegID) (view : CAccountViewCache)
    (s : CScriptDBViewCache) (nHeight : ℤ) (ullBurnFactor : UInt64) (script : CVmScript)
    (type : ScriptType) (r : VmResult) (out : Outcome)
    (hr : Interpreted node tx des view s nHeight ullBurnFactor script type r)
    (hchecks : checksAccount type script r = true)
    (hrun : run node tx des view s nHeight ullBurnFactor = .ok out)
    (hvalue : tx.ullValues.toNat < 2 ^ 63) (hv : view.WellKeyed)
    (hheld : contractHeld des view view.accounts < 2 ^ 63)
    (hown : ∀ item ∈ mapAppOperate r.appOperate, OwnRecord s des item.1)
    (hroom : ∀ item ∈ mapAppOperate r.appOperate, Room des s item) :
    MovesFunds node tx des view s nHeight r out ↔ AmountsFit node des view s nHeight r := by
  obtain ⟨s₁, -, -, -, hcheck, hacc, -, -, happck⟩ := run_interpreted hr hrun
  obtain ⟨hframe, hall⟩ := run_users hr hrun hown hroom
  obtain ⟨paid, hpaid, hsigned⟩ := checkAppAcctOperate_spec (happck hchecks)
  set before : Bytes → ℤ := fun u => appFunds s des u with hbefore
  set after : Bytes → ℤ := fun u => appFunds out.scriptDB des u with hafter
  have hsum : ∀ users : Finset Bytes, (∀ item ∈ mapAppOperate r.appOperate, item.1 ∈ users) →
      ∑ u ∈ users, after u - ∑ u ∈ users, before u
        = ((mapAppOperate r.appOperate).map fun item => after item.1 - before item.1).sum := by
    intro users husers
    rw [← Finset.sum_sub_distrib]
    refine sum_users (fun u => after u - before u) (mapAppOperate_nodup _) ?_ husers
    intro u hu
    rw [hafter, hbefore]
    dsimp only
    rw [hframe u hu, sub_self]
  -- what users gain on top of the signed sum
  have hextra : (∀ item ∈ mapAppOperate r.appOperate, ∀ a,
        loadedAccount node.chainActive s des nHeight item.1 = .ok a → a.Stays item.2) →
      ∃ x : ℕ, ((mapAppOperate r.appOperate).map fun item => after item.1 - before item.1).sum
          = tx.ullValues.toInt64.toInt - paid.toInt64.toInt + x ∧
        (x = 0 ↔ ∀ item ∈ mapAppOperate r.appOperate, ∀ op ∈ item.2, 0 ≤ op.llMoney.toInt) := by
    intro hstays
    rw [← hsigned]
    refine gains_sum (fun u => after u - before u) fun item hitem => ?_
    obtain ⟨a, b, hload, hop, ha, hb⟩ := hall item hitem
    obtain ⟨x, hx, hxz⟩ := (hstays item hitem a hload).moves hop
    refine ⟨x, ?_, hxz⟩
    rw [hafter, hbefore]
    dsimp only
    rw [← ha, ← hb, hx]
    ring
  have hv64 : tx.ullValues.toInt64.toInt = tx.ullValues.toNat := by
    rcases toInt64_cases tx.ullValues with ⟨-, h⟩ | ⟨hbig, -⟩
    · exact h
    · omega
  constructor
  · intro hmoves
    obtain ⟨x, hx, hxz⟩ := hextra hmoves.stays
    have husers : ∀ item ∈ mapAppOperate r.appOperate,
        item.1 ∈ ((mapAppOperate r.appOperate).map Prod.fst).toFinset := fun item hitem =>
      List.mem_toFinset.mpr (List.mem_map_of_mem hitem)
    have htotal : ∑ u ∈ _, after u = ∑ u ∈ _, before u + tx.ullValues.toNat
        - paidOut node.cfg node.cr view des r.output := hmoves.moves _ husers
    have hsame := hsum _ husers
    have hzero : x = 0 ∧ paid.toNat < 2 ^ 63 := by
      rcases toInt64_cases paid with ⟨hlt, hp⟩ | ⟨hge, hp⟩ <;> omega
    have hpos := hxz.mp hzero.1
    refine ⟨hpos, fun item hitem a hload => ?_, by omega⟩
    obtain ⟨a', b, hload', hop, -⟩ := hall item hitem
    obtain rfl := Except.ok.inj (hload.symm.trans hload')
    exact (hmoves.stays item hitem a hload).within (hpos item hitem) hop
  · intro hfit
    have hstays : ∀ item ∈ mapAppOperate r.appOperate, ∀ a,
        loadedAccount node.chainActive s des nHeight item.1 = .ok a → a.Stays item.2 :=
      fun item hitem a hload => (hfit.within item hitem a hload).stays (hfit.nonneg item hitem)
    obtain ⟨x, hx, hxz⟩ := hextra hstays
    have hzero := hxz.mpr hfit.nonneg
    have hp : paid.toInt64.toInt = paid.toNat := by
      have hlt := hfit.paid
      rcases toInt64_cases paid with ⟨-, h⟩ | ⟨hbig, -⟩
      · exact h
      · omega
    have hmoves : ∀ users : Finset Bytes, (∀ item ∈ mapAppOperate r.appOperate, item.1 ∈ users) →
        ∑ u ∈ users, after u = ∑ u ∈ users, before u + tx.ullValues.toNat
          - paidOut node.cfg node.cr view des r.output := by
      intro users husers
      have hsame := hsum users husers
      omega
    refine ⟨hstays, hmoves, fun users husers hcover => ?_⟩
    have htotal := hmoves users husers
    have hkeeps := contractHeld_le hv hcheck hacc hheld
    have hcastb : ((∑ u ∈ users, appFunds s des u : ℕ) : ℤ) = ∑ u ∈ users, before u :=
      Nat.cast_sum _ _
    have hcasta : ((∑ u ∈ users, appFunds out.scriptDB des u : ℕ) : ℤ) = ∑ u ∈ users, after u :=
      Nat.cast_sum _ _
    omega

/-! ## Two calls of the sample node -/

/-- An 8051 program whose header asks for the account check. -/
def sampleScript : CVmScript := ⟨[2, 0, 0, 0, 0, 2, 2, 0, 0, 0, 0, 0, 0, 0, 0, 0, 0, 0, 0, 0, 1], []⟩

/-- What it leaves behind: two users' free amounts go up. -/
def sampleGains (first second : Int64) : VmResult where
  llStep := 1
  dbOps := []
  output := []
  appOperate := [([1], ⟨addFreeOp, 0, first, 0, []⟩), ([2], ⟨addFreeOp, 0, second, 0, []⟩)]
  bCheckAccount := false

def sampleNode (r : VmResult) : Node := { Sample.node with vm := fun _ => some r }

def sampleCall (ullValues : UInt64) : CTransaction where
  chTxType := .contract
  nVersion := 2
  nValidHeight := 100
  cSrcRegId := .regID ⟨50, 1⟩
  cDesUserId := .regID ⟨60, 1⟩
  ullFees := 20000
  ullValues := ullValues
  vchContract := []
  vchSignature := []

def sampleCode : CScriptDBViewCache :=
  Sample.scriptsOf [(CScriptDBViewCache.scriptKey (CRegID.getVec6 ⟨60, 1⟩),
    21 :: sampleScript.vuchRom ++ [0])]

theorem sampleCode_empty (u : Bytes) (hu : u = [1] ∨ u = [2]) :
    sampleCode.getScriptAcc ⟨60, 1⟩ u = .ok none := by
  rcases hu with rfl | rfl <;> rfl

theorem sampleCode_loaded {u : Bytes} (hu : u = [1] ∨ u = [2]) {a : CAppUserAccout}
    (h : loadedAccount [] sampleCode ⟨60, 1⟩ 100 u = .ok a) : a = .ofUser u := by
  rcases hu with rfl | rfl <;> exact (Except.ok.inj h).symm

theorem sampleGains_users {first second : Int64} {item : Bytes × List CAppFundOperate}
    (h : item ∈ mapAppOperate (sampleGains first second).appOperate) :
    (item.1 = [1] ∨ item.1 = [2]) ∧ item.2.length = 1 := by
  rcases List.mem_cons.mp h with rfl | h
  · exact ⟨.inl rfl, rfl⟩
  · rw [List.mem_singleton.mp h]
    exact ⟨.inr rfl, rfl⟩

theorem sampleGains_own {first second : Int64} {item : Bytes × List CAppFundOperate}
    (h : item ∈ mapAppOperate (sampleGains first second).appOperate) :
    OwnRecord sampleCode ⟨60, 1⟩ item.1 := by
  intro a ha
  rw [sampleCode_empty _ (sampleGains_users h).1] at ha
  cases ha

theorem sampleGains_room {first second : Int64} {item : Bytes × List CAppFundOperate}
    (h : item ∈ mapAppOperate (sampleGains first second).appOperate) :
    Room ⟨60, 1⟩ sampleCode item := by
  obtain ⟨hu, hlen⟩ := sampleGains_users h
  rw [Room, frozenCount, sampleCode_empty _ hu, hlen]
  rcases hu with hu | hu <;> rw [hu] <;> decide

/-- Five units paid in for the first user. -/
theorem solvency_iff_deposit : ∃ out,
    run (sampleNode (sampleGains 5 0)) (sampleCall 5) ⟨60, 1⟩ (sampleHoldings 7) sampleCode 100 100
      = .ok out ∧
    MovesFunds (sampleNode (sampleGains 5 0)) (sampleCall 5) ⟨60, 1⟩ (sampleHoldings 7) sampleCode 100
      (sampleGains 5 0) out := by
  have hok : (run (sampleNode (sampleGains 5 0)) (sampleCall 5) ⟨60, 1⟩ (sampleHoldings 7) sampleCode
      100 100).toOption.isSome = true := by decide +kernel
  obtain ⟨out, hrun⟩ := Except.exists_of_toOption hok
  refine ⟨out, hrun, (solvency_iff (sampleNode (sampleGains 5 0)) (sampleCall 5) ⟨60, 1⟩
    (sampleHoldings 7) sampleCode 100 100 sampleScript .mcs8051 (sampleGains 5 0) out ⟨rfl, rfl⟩ rfl
    hrun (by decide) (Sample.viewOf_wellKeyed _ _ _) (by decide) (fun _ => sampleGains_own)
    (fun _ => sampleGains_room)).mpr ⟨by decide, ?_, by decide⟩⟩
  intro item hitem a ha
  rw [sampleCode_loaded (sampleGains_users hitem).1 ha]
  rcases List.mem_cons.mp hitem with rfl | hitem
  · decide
  · rw [List.mem_singleton.mp hitem]
    decide

/-- A user who gains -5 while another gains 5 is left with 2^64 - 5. -/
theorem negative_gain : ¬ ∀ (node : Node) (tx : CTransaction) (des : CRegID)
    (view : CAccountViewCache) (s : CScriptDBViewCache) (nHeight : ℤ) (ullBurnFactor : UInt64)
    (script : CVmScript) (type : ScriptType) (r : VmResult) (out : Outcome),
    Interpreted node tx des view s nHeight ullBurnFactor script type r →
    checksAccount type script r = true →
    run node tx des view s nHeight ullBurnFactor = .ok out →
    tx.ullValues.toNat < 2 ^ 63 → view.WellKeyed →
    contractHeld des view view.accounts < 2 ^ 63 →
    (∀ item ∈ mapAppOperate r.appOperate, OwnRecord s des item.1) →
    (∀ item ∈ mapAppOperate r.appOperate, Room des s item) →
    MovesFunds node tx des view s nHeight r out := by
  intro h
  have hok : (run (sampleNode (sampleGains (-5) 5)) (sampleCall 0) ⟨60, 1⟩ (sampleHoldings 7)
      sampleCode 100 100).toOption.isSome = true := by decide +kernel
  obtain ⟨out, hrun⟩ := Except.exists_of_toOption hok
  have hmoves := h (sampleNode (sampleGains (-5) 5)) (sampleCall 0) ⟨60, 1⟩ (sampleHoldings 7)
    sampleCode 100 100 sampleScript .mcs8051 (sampleGains (-5) 5) out ⟨rfl, rfl⟩ rfl
    hrun (by decide) (Sample.viewOf_wellKeyed _ _ _) (by decide)
    (fun _ => sampleGains_own) (fun _ => sampleGains_room)
  have hstays := hmoves.stays ([1], [⟨addFreeOp, 0, -5, 0, []⟩]) List.mem_cons_self (.ofUser [1]) rfl
  exact absurd (hstays.2 _ rfl).1 (by decide)

end CVmRunEvn

end Dacrs
