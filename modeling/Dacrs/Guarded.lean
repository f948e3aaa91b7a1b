import Dacrs.Execute

/-!
# Executions with their unchecked accesses

`IsValid` and `IsCheckAccount` index the code of a contract without looking at its length, and
`ExecuteTx` follows the account pointers of the run.  Here the same functions make these accesses
explicit: one that finds nothing ends the execution.
-/

open Codec (Bytes)

namespace Dacrs

/-! ## The code of a contract -/

/-- What an access outside of `m_vuchRom` ends in. -/
def outsideRom : String := "read outside of m_vuchRom"

/-- `memcmp`. -/
def memcmp : Bytes → Bytes → Ordering
  | a :: l, b :: m => if a < b then .lt else if b < a then .gt else memcmp l m
  | _, _ => .eq

namespace CVmScript

variable (s : CVmScript)

/-- `m_vuchRom[i]`. -/
def romAt (i : ℕ) : Exec UInt8 := Exec.ofOption s.vuchRom[i]? (Exec.throw outsideRom)

/-- `memcmp(&m_vuchRom[i], …)`: all the bytes that are compared must be there. -/
def memcmpRom (i : ℕ) (lit : Bytes) : Exec Ordering :=
  if i + lit.length ≤ s.vuchRom.length then .ok (memcmp (s.vuchRom.drop i) lit)
  else Exec.throw outsideRom

/-- "\x00\x02\x02". -/
def sdkVersion : Bytes := [0, 2, 2]

/-- `IsValid`. -/
def isValidGuarded : Exec (Option ScriptType) :=
  if 64 * 1024 < s.vuchRom.length ∨ s.vuchRom.length = 0 then .ok none
  else do
    let b ← s.romAt 0
    if b ≠ 2 then
      let o ← s.memcmpRom 0 luaHeader
      return if o = .eq then some .lua else none
    else
      let o ← s.memcmpRom 4 sdkVersion
      if o = .lt then return some .mcs8051
      else
        let b ← s.romAt 20
        return if b = 0 ∨ b = 1 then some .mcs8051 else none

/-- `IsCheckAccount`. -/
def isCheckAccountGuarded (type : ScriptType) : Exec Bool :=
  match type with
  | .lua => .ok false
  | .mcs8051 => do
    let o ← s.memcmpRom 4 sdkVersion
    if o = .lt then return false
    else
      let b ← s.romAt 20
      return b == 1

/-- The code is as long as `IsValid` takes it to be. -/
def ReadsInside : Prop :=
  64 * 1024 < s.vuchRom.length ∨ s.vuchRom.length = 0 ∨
    (if s.vuchRom.head? ≠ some 2 then 15 ≤ s.vuchRom.length
      else 7 ≤ s.vuchRom.length ∧ (s.newSdk = true → 21 ≤ s.vuchRom.length))

end CVmScript

/-! ## The executions -/

namespace CRegisterAppTx

/-- The checks on the contract's code. -/
def checkScriptGuarded (node : Node) (tx : CRegisterAppTx) (nHeight : ℤ) : Exec Unit :=
  match CVmScript.unserialize tx.vchScript with
  | none => Exec.updateFail "unserialize-script-error"
  | some (vmScript, _) => do
    match ← vmScript.isValidGuarded with
    | none => Exec.updateFail "script-check-failed"
    | some .mcs8051 =>
      Exec.require (¬ limite8051AppHeight ≤ nHeight) (Exec.updateFail "script-check-failed")
    | some .lua =>
      Exec.require (node.luaSyntaxcheck vmScript.vuchRom) (Exec.updateFail "script-check-failed")

/-- `CRegisterAppTx::ExecuteTx`. -/
def executeTxGuarded (node : Node) (tx : CRegisterAppTx) (nIndex nHeight : ℤ) (vs : Views) :
    Exec Executed := do
  let cAcctInfo ← Exec.ofOption (vs.view.getAccount node.cr tx.cRegAcctId)
    (Exec.updateFail "bad-read-accountdb")
  let (acct, accountLogs) ← tx.payFee node nHeight cAcctInfo
  tx.checkScriptGuarded node nHeight
  let cRegId := CRegID.ofPosition nHeight nIndex
  let s ← (vs.scriptDB.setScript cRegId.getVec6 tx.vchScript).onFalse
    (updateFailCall "bad-save-scriptdb")
  let view := vs.view.saveAccountInfo cRegId (contractKeyId node.cr cRegId)
    (contractAccount node.cr cRegId)
  let view := view.setAccountKey acct.cKeyID acct
  let hash := (CBaseTransaction.registerApp tx).getHash node.cr.Hash
  let (s, logs) ← writeAddressIndex node ⟨view, s⟩ [tx.cRegAcctId] nHeight nIndex hash
  Exec.require (¬ (limiteAppHeight < nHeight ∧ acct.cKeyID ≠ appRegistrant)) Exec.returnFalse
  return ⟨⟨view, s⟩, ⟨hash, accountLogs, logs⟩, UInt64.ofNat tx.vchScript.length⟩

end CRegisterAppTx

namespace CVmRunEvn

/-- `intial`, with the value of `m_bIsCheckAccount` it sets. -/
def intialGuarded (s : CScriptDBViewCache) (des : CRegID) (tx : CTransaction) :
    Exec (CVmScript × ScriptType × Bool) := do
  let vuchScript ← Exec.ofOption (s.getScript des.getVec6) Exec.returnFalse
  match CVmScript.unserialize vuchScript with
  | none => Exec.throw "CVmScriptRun::intial() Unserialize to vmScript error"
  | some (script, _) =>
    let valid ← script.isValidGuarded
    let type ← Exec.ofOption valid Exec.returnFalse
    let bIsCheckAccount ← script.isCheckAccountGuarded type
    Exec.require (tx.vchContract.length < 4 * 1024) Exec.returnFalse
    return (script, type, bIsCheckAccount)

/-- `run`. -/
def runGuarded (node : Node) (tx : CTransaction) (des : CRegID) (view : CAccountViewCache)
    (s : CScriptDBViewCache) (nHeight : ℤ) (ullBurnFactor : UInt64) : Exec Outcome := do
  Exec.require (ullBurnFactor ≠ 0) Exec.returnFalse
  Exec.require (minTxFee < tx.ullFees) Exec.returnFalse
  let (script, type, bIsCheckAccount) ← intialGuarded s des tx
  let r ← interpret node {
    type, script, maxStep := maxStep tx.ullFees ullBurnFactor, tx, view, scriptDB := s, nHeight,
    chainActive := node.chainActive, disk := node.disk }
  Exec.require (r.llStep ≠ 0 ∧ r.llStep ≠ -1) Exec.returnFalse
  let (s, dblog) ← runDb des.getVec6 s r.dbOps
  Exec.require (checkOperate node.cfg node.cr view s des r.output) Exec.returnFalse
  let accounts ← Exec.ofOption (opeatorAccount node.cfg node.cr view nHeight r.output)
    Exec.returnFalse
  let bCheckAccount := match type with
    | .mcs8051 => bIsCheckAccount
    | .lua => r.bCheckAccount
  let mapOp := mapAppOperate r.appOperate
  Exec.require (bCheckAccount = false ∨
    checkAppAcctOperate node.cfg node.cr view des tx.ullValues mapOp r.output) Exec.returnFalse
  let app ← opeatorAppAccount node.chainActive des nHeight s mapOp
  let hash := (CBaseTransaction.transaction tx).getHash node.cr.Hash
  let (s, outlog) := writeOutPut node.cfg hash r.output app
  let ullRunStep := r.llStep.toUInt64
  let _ ← Exec.ofOption (safeMultiply ullRunStep ullBurnFactor) Exec.returnFalse
  return ⟨ullRunStep, s, dblog ++ outlog, accounts, app.rawAppUserAccout⟩

end CVmRunEvn

namespace CTransaction

/-- What following a null pointer of `m_NewAccont` ends in. -/
def nullAccount : String := "itemAccount is NULL"

/-- One account a contract touched is saved. -/
def saveContractAccountGuarded (w : CVmRunEvn.AccountWork)
    (st : CAccountViewCache × List CAccountLog) (k : CKeyID) :
    Exec (CAccountViewCache × List CAccountLog) := do
  let itemAccount ← Exec.ofOption (w.rawAccont.lookup k) (Exec.throw nullAccount)
  let cOldAcct ← oldContractAccount st.1 k
  return (st.1.setAccountKey k itemAccount, st.2 ++ [CAccountLog.ofAccount cOldAcct])

/-- The contract part of `ExecuteTx`. -/
def executeContractGuarded (node : Node) (tx : CTransaction) (nHeight : ℤ) (nFuelRate : Int32)
    (vs : Views) : Exec (Views × List CAccountLog × List CScriptDBOperLog × UInt64) :=
  Exec.withRegID tx.cDesUserId fun des => do
    Exec.require (¬ (limiteAppHeight < nHeight ∧ des ∈ listBlockAppId))
      (Exec.updateFail "bad-read-account")
    let _ ← Exec.ofOption (vs.scriptDB.getScript des.getVec6) (Exec.updateFail "bad-read-account")
    let hash := (CBaseTransaction.transaction tx).getHash node.cr.Hash
    let ullEl := int32ToUInt64 (getFuelRate node vs.scriptDB hash nFuelRate)
    let out ← (CVmRunEvn.runGuarded node tx des vs.view vs.scriptDB nHeight ullEl).onFalse
      (updateFailCall "run-script-error")
    let (view, logs) ←
      out.accounts.newAccont.foldlM (saveContractAccountGuarded out.accounts) (vs.view, [])
    let users := out.rawAppUserAccout.filterMap fun a => appUserKeyId node view a.vuchAccUserID
    let s := out.scriptDB.setTxRelAccout hash (relAccountBytes (out.accounts.newAccont ++ users))
    return (⟨view, s⟩, logs, out.dblog, out.ullRunStep)

/-- Nothing more happens for a plain transfer. -/
def executeByTypeGuarded (node : Node) (tx : CTransaction) (nHeight : ℤ) (nFuelRate : Int32)
    (vs : Views) : Exec (Views × List CAccountLog × List CScriptDBOperLog × UInt64) :=
  match tx.chTxType with
  | .contract => tx.executeContractGuarded node nHeight nFuelRate vs
  | .common => .ok (vs, [], [], 0)

/-- `CTransaction::ExecuteTx`. -/
def executeTxGuarded (node : Node) (tx : CTransaction) (nIndex nHeight : ℤ) (nFuelRate : Int32)
    (vs : Views) : Exec Executed := do
  let (view, accountLogs) ← tx.transfer node nHeight vs.view
  let (vs, contractLogs, dblog, ullRunStep) ←
    tx.executeByTypeGuarded node nHeight nFuelRate ⟨view, vs.scriptDB⟩
  let hash := (CBaseTransaction.transaction tx).getHash node.cr.Hash
  let (s, logs) ← writeAddressIndex node vs [tx.cSrcRegId, tx.cDesUserId] nHeight nIndex hash
  return ⟨⟨vs.view, s⟩, ⟨hash, accountLogs ++ contractLogs, dblog ++ logs⟩, ullRunStep⟩

end CTransaction

namespace CBaseTransaction

/-- `ExecuteTx`. -/
def executeTxGuarded (node : Node) (tx : CBaseTransaction) (nIndex nHeight : ℤ) (nFuelRate : Int32)
    (vs : Views) : Exec Executed :=
  match tx with
  | reward tx => tx.executeTx node nIndex nHeight vs
  | registerAccount tx => tx.executeTx node nIndex nHeight vs
  | transaction tx => tx.executeTxGuarded node nIndex nHeight nFuelRate vs
  | registerApp tx => tx.executeTxGuarded node nIndex nHeight vs

end CBaseTransaction

/-! ## The accesses of `IsValid` -/

theorem memcmp_eq_iff {l m : Bytes} (h : m.length ≤ l.length) :
    memcmp l m = .eq ↔ l.take m.length = m := by
  induction l generalizing m with
  | nil =>
    obtain rfl := List.length_eq_zero_iff.mp (Nat.le_zero.mp h)
    simp [memcmp]
  | cons a l ih =>
    cases m with
    | nil => simp [memcmp]
    | cons b m =>
      unfold memcmp
      rw [List.length_cons, List.take_succ_cons, List.cons.injEq]
      by_cases hlt : a < b
      · rw [if_pos hlt]
        have hne : a ≠ b := UInt8.ne_of_lt hlt
        simp [hne]
      · rw [if_neg hlt]
        by_cases hgt : b < a
        · rw [if_pos hgt]
          have hne : a ≠ b := (UInt8.ne_of_lt hgt).symm
          simp [hne]
        · rw [if_neg hgt, ih (Nat.le_of_succ_le_succ h)]
          have heq : a = b := UInt8.le_antisymm (UInt8.not_lt.mp hgt) (UInt8.not_lt.mp hlt)
          simp [heq]

namespace CVmScript

variable {s : CVmScript}

theorem romAt_eq {i : ℕ} (h : i < s.vuchRom.length) : s.romAt i = .ok (s.vuchRom.getD i 0) := by
  unfold romAt
  rw [List.getElem?_eq_getElem h, List.getD_eq_getElem?_getD, List.getElem?_eq_getElem h]
  rfl

theorem romAt_outside {i : ℕ} (h : s.vuchRom.length ≤ i) : s.romAt i = Exec.throw outsideRom := by
  unfold romAt
  rw [List.getElem?_eq_none h]
  rfl

/-- Three bytes against the version. -/
theorem memcmp_sdkVersion (a b c : UInt8) (rest : Bytes) :
    memcmp (a :: b :: c :: rest) sdkVersion = .lt ↔
      (0 < a || 2 < b || (b == 2 && 2 ≤ c)) = false := by
  unfold sdkVersion
  simp only [memcmp, UInt8.lt_iff_toNat_lt, UInt8.le_iff_toNat_le, beq_eq_decide,
    ← UInt8.toNat_inj, UInt8.reduceToNat]
  split
  · omega
  · split
    · simp_all
    · split
      · next h => simp; omega
      · split
        · next h => simp; omega
        · split
          · next h => simp; omega
          · split <;> simp <;> omega

/-- The comparison with the version is the one of `newSdk`. -/
theorem memcmpRom_sdkVersion (h : 7 ≤ s.vuchRom.length) :
    ∃ o, s.memcmpRom 4 sdkVersion = .ok o ∧ (o = .lt ↔ s.newSdk = false) := by
  refine ⟨memcmp (s.vuchRom.drop 4) sdkVersion, if_pos h, ?_⟩
  obtain ⟨a, b, c, rest, hdrop⟩ : ∃ a b c rest, s.vuchRom.drop 4 = a :: b :: c :: rest := by
    match hd : s.vuchRom.drop 4 with
    | a :: b :: c :: rest => exact ⟨a, b, c, rest, rfl⟩
    | [] | [_] | [_, _] =>
      have hlen := congrArg List.length hd
      simp only [List.length_drop, List.length_cons, List.length_nil] at hlen
      omega
  have hget : ∀ i, s.vuchRom.getD (4 + i) 0 = (a :: b :: c :: rest).getD i 0 := by
    intro i
    rw [← hdrop, List.getD_eq_getElem?_getD, List.getD_eq_getElem?_getD, List.getElem?_drop]
  have hsdk : s.newSdk = (0 < a || 2 < b || (b == 2 && 2 ≤ c)) := by
    have ha : s.vuchRom.getD 4 0 = a := hget 0
    have hb : s.vuchRom.getD 5 0 = b := hget 1
    have hc : s.vuchRom.getD 6 0 = c := hget 2
    unfold newSdk
    rw [ha, hb, hc]
  rw [hsdk, hdrop]
  exact memcmp_sdkVersion a b c rest

theorem memcmpRom_outside {i : ℕ} {lit : Bytes} (h : s.vuchRom.length < i + lit.length) :
    s.memcmpRom i lit = Exec.throw outsideRom := if_neg (by omega)

theorem head_ne_two (hpos : s.vuchRom.length ≠ 0) :
    s.vuchRom.head? ≠ some 2 ↔ s.vuchRom.getD 0 0 ≠ 2 := by
  rw [List.head?_eq_getElem?, List.getD_eq_getElem?_getD,
    List.getElem?_eq_getElem (Nat.pos_of_ne_zero hpos)]
  simp

/-- Inside the code nothing changes. -/
theorem isValidGuarded_eq (h : s.ReadsInside) : s.isValidGuarded = .ok s.isValid := by
  unfold ReadsInside at h
  unfold isValidGuarded isValid
  by_cases hsize : 64 * 1024 < s.vuchRom.length ∨ s.vuchRom.length = 0
  · rw [if_pos hsize, if_pos hsize]
  · rw [if_neg hsize, if_neg hsize]
    obtain ⟨hbig, hpos⟩ := not_or.mp hsize
    have hsize' := (h.resolve_left hbig).resolve_left hpos
    rw [romAt_eq (Nat.pos_of_ne_zero hpos), Except.ok_bind]
    by_cases h2 : s.vuchRom.getD 0 0 ≠ 2
    · have hhead := (head_ne_two hpos).mpr h2
      rw [if_pos hhead] at hsize' ⊢
      rw [if_pos h2]
      have hlen : 0 + luaHeader.length ≤ s.vuchRom.length := hsize'
      have heq : memcmp (s.vuchRom.drop 0) luaHeader = .eq ↔ s.vuchRom.take 15 = luaHeader := by
        rw [List.drop_zero]
        exact memcmp_eq_iff (by simpa using hlen)
      unfold memcmpRom
      rw [if_pos hlen, Except.ok_bind]
      simp only [heq]
      rfl
    · have hhead := mt (head_ne_two hpos).mp h2
      rw [if_neg hhead] at hsize' ⊢
      rw [if_neg h2]
      obtain ⟨o, ho, hiff⟩ := memcmpRom_sdkVersion hsize'.1
      rw [ho, Except.ok_bind]
      by_cases hlt : o = .lt
      · rw [if_pos hlt, if_neg (by simp [hiff.mp hlt])]
        rfl
      · have hnew : s.newSdk = true := by
          rw [← Bool.not_eq_false, ← hiff]
          exact hlt
        rw [if_neg hlt, romAt_eq (hsize'.2 hnew), Except.ok_bind]
        by_cases hb : s.vuchRom.getD 20 0 = 0 ∨ s.vuchRom.getD 20 0 = 1
        · rw [if_pos hb, if_neg (by tauto)]
          rfl
        · rw [if_neg hb, if_pos ⟨hnew, by tauto⟩]
          rfl

theorem isValidGuarded_outside (h : ¬ s.ReadsInside) :
    s.isValidGuarded = Exec.throw outsideRom := by
  unfold ReadsInside at h
  obtain ⟨hbig, h⟩ := not_or.mp h
  obtain ⟨hpos, h⟩ := not_or.mp h
  unfold isValidGuarded
  rw [if_neg (not_or.mpr ⟨hbig, hpos⟩)]
  rw [romAt_eq (Nat.pos_of_ne_zero hpos), Except.ok_bind]
  by_cases h2 : s.vuchRom.getD 0 0 ≠ 2
  · rw [if_pos ((head_ne_two hpos).mpr h2)] at h
    rw [if_pos h2]
    rw [memcmpRom_outside (by rw [Nat.zero_add]; exact Nat.not_le.mp h)]
    rfl
  · rw [if_neg (mt (head_ne_two hpos).mp h2)] at h
    rw [if_neg h2]
    by_cases h7 : 7 ≤ s.vuchRom.length
    · obtain ⟨hnew, h21⟩ := Classical.not_imp.mp (not_and.mp h h7)
      obtain ⟨o, ho, hiff⟩ := memcmpRom_sdkVersion h7
      have hge : ¬ o = .lt := by
        rw [hiff, Bool.not_eq_false]
        exact hnew
      rw [ho, Except.ok_bind, if_neg hge, romAt_outside (Nat.le_of_lt_succ (Nat.not_le.mp h21))]
      rfl
    · rw [memcmpRom_outside (by simpa [sdkVersion] using Nat.not_le.mp h7)]
      rfl

/-- `IsCheckAccount` is only asked about code that `IsValid` accepted. -/
theorem isCheckAccountGuarded_eq {type : ScriptType} (h : s.ReadsInside)
    (hvalid : s.isValid = some type) :
    s.isCheckAccountGuarded type = .ok (s.isCheckAccount type) := by
  cases type with
  | lua => rfl
  | mcs8051 =>
    unfold ReadsInside at h
    unfold isValid at hvalid
    split at hvalid
    · cases hvalid
    · next hsize =>
      obtain ⟨hbig, hpos⟩ := not_or.mp hsize
      have hsize' := (h.resolve_left hbig).resolve_left hpos
      split at hvalid
      · split at hvalid <;> cases hvalid
      · next h2 =>
        rw [if_neg h2] at hsize'
        obtain ⟨o, ho, hiff⟩ := memcmpRom_sdkVersion hsize'.1
        unfold isCheckAccountGuarded isCheckAccount
        dsimp only
        rw [ho, Except.ok_bind]
        by_cases hlt : o = .lt
        · rw [if_pos hlt, hiff.mp hlt]
          rfl
        · have hnew : s.newSdk = true := by
            rw [← Bool.not_eq_false, ← hiff]
            exact hlt
          rw [if_neg hlt, romAt_eq (hsize'.2 hnew), hnew, Bool.true_and]
          rfl

end CVmScript

end Dacrs
