import Dacrs.Reward
import Dacrs.VmRun

/-!
# The steps of a block

What the run of a contract counts becomes the run step of its transaction, and `ConnectBlock` adds the
run steps up.  Where every call on the 8051 core costs, the run step is what was counted, and the sum is
exact (`run_steps_exact`).  A call that is refused gives a step back: `endless` runs for ever on two.
-/

open Codec (Bytes)

namespace Dacrs

open CVm8051 in
/-- The state the 8051 core starts in on an input. -/
def VmInput.start (lib : VmLibrary) (input : VmInput) : RunState :=
  let layers := (lib.layers input).val
  .start input.script.vuchRom input.tx.vchContract (lib.behind input) layers.1 layers.2

open CVm8051 in
/-- The core of a node is `CVm8051::run`. -/
def Node.Mcs8051 (node : Node) (lib : VmLibrary) : Prop :=
  ∀ input des r, input.type = .mcs8051 → input.tx.cDesUserId = .regID des →
    node.vm input = some r → ∃ n step st,
      CVm8051.Run node lib input.tx input.view des input.nHeight input.maxStep (input.start lib) n
        (.ok (step, st)) ∧
      r.llStep = Int64.ofInt step ∧ r.dbOps = st.dbOps ∧ r.output = st.output ∧
      r.appOperate = st.appOperate

/-- The steps of a Lua contract: what the interpreter counts, or -1. -/
def Node.LuaCounts (node : Node) : Prop :=
  ∀ input r, input.type = .lua → node.vm input = some r → -1 ≤ r.llStep.toInt

open CVm8051 in
/-- On this input every call of the core costs. -/
def VmInput.Charged (node : Node) (lib : VmLibrary) (des : CRegID) (input : VmInput) : Prop :=
  input.type = .mcs8051 →
    CallsCharged node lib input.tx input.view des input.nHeight input.maxStep (input.start lib)

/-- An `int64_t` from 0 on is its own bits. -/
theorem Int64_toUInt64_of_nonneg {n : Int64} (h : 0 ≤ n.toInt) :
    (n.toUInt64.toNat : ℤ) = n.toInt ∧ n.toUInt64.toNat < 2 ^ 63 := by
  have hcond := BitVec.toInt_eq_toNat_cond n.toBitVec
  have hint : n.toInt = n.toBitVec.toInt := rfl
  have hnat : n.toUInt64.toNat = n.toBitVec.toNat := rfl
  have hlt := n.toBitVec.isLt
  split at hcond
  · omega
  · omega

/-! ## One run -/

namespace CVmRunEvn

open CVm8051

variable {node : Node} {lib : VmLibrary} {tx : CTransaction} {des : CRegID} {view : CAccountViewCache}
  {s : CScriptDBViewCache} {nHeight : ℤ} {ullBurnFactor : UInt64} {out : Outcome}

theorem interpret_eq_ok {input : VmInput} {r : VmResult} (h : interpret node input = .ok r) :
    input.maxStep ≠ 0 ∧ node.vm input = some r := by
  unfold interpret at h
  split at h
  · cases h
  · next hzero =>
    split at h
    · cases h
    · next q hq =>
      cases h
      exact ⟨hzero, hq⟩

/-- What a core with calls that cost reports is what it counted. -/
theorem core_steps (hcore : node.Mcs8051 lib) {input : VmInput} (htype : input.type = .mcs8051)
    (hdes : input.tx.cDesUserId = .regID des) (hcharged : input.Charged node lib des) {r : VmResult}
    (hr : node.vm input = some r) (h0 : r.llStep ≠ 0) (h1 : r.llStep ≠ -1) :
    ∃ n step st, CVm8051.Run node lib input.tx input.view des input.nHeight input.maxStep
        (input.start lib) n (.ok (step, st)) ∧ (r.llStep.toUInt64.toNat : ℤ) = step ∧
      1 ≤ step ∧ step ≤ input.maxStep.toNat ∧ step ≤ 12000000 ∧ n ≤ step := by
  obtain ⟨n, step, st, hrun, hstep, -⟩ := hcore input des r htype hdes hr
  have hne : step ≠ 0 := by
    rintro rfl
    exact h0 hstep
  have hne' : step ≠ -1 := by
    rintro rfl
    exact h1 hstep
  obtain ⟨hpos, hmax, hblock, hn⟩ := (run_halts input.maxStep rfl (hcharged htype)).2 n step st hrun hne hne'
  refine ⟨n, step, st, hrun, ?_, hpos, hmax, hblock, hn⟩
  have hint : r.llStep.toInt = step := by
    rw [hstep]
    exact Int64.toInt_ofInt_of_le (by omega) (by omega)
  rw [← hint]
  exact (Int64_toUInt64_of_nonneg (by omega)).1

/-- The run step of a contract transaction is a count: that of the core, or that of the Lua
interpreter. -/
theorem run_steps (hcore : node.Mcs8051 lib) (hlua : node.LuaCounts)
    (hdes : tx.cDesUserId = .regID des)
    (hcharged : ∀ script type, intial s des tx = .ok (script, type) →
      (vmInput node tx view s nHeight ullBurnFactor script type).Charged node lib des)
    (h : run node tx des view s nHeight ullBurnFactor = .ok out) :
    1 ≤ out.ullRunStep.toNat ∧ out.ullRunStep.toNat < 2 ^ 63 ∧
      ∀ script, intial s des tx = .ok (script, .mcs8051) → ∃ n st,
        CVm8051.Run node lib tx view des nHeight (maxStep tx.ullFees ullBurnFactor)
          ((vmInput node tx view s nHeight ullBurnFactor script .mcs8051).start lib) n
          (.ok ((out.ullRunStep.toNat : ℤ), st)) ∧
        out.ullRunStep.toNat ≤ (maxStep tx.ullFees ullBurnFactor).toNat ∧ n ≤ out.ullRunStep.toNat := by
  obtain ⟨r, s₁, dblog, app, mapOp, -, -, -, -, -, -, hstep, h0, h1, -, script, type, hinit, hint, -⟩ :=
    run_cases h
  obtain ⟨-, hvm⟩ := interpret_eq_ok hint
  rw [hstep]
  cases type with
  | mcs8051 =>
    obtain ⟨n, step, st, hrun, hcount, hpos, hmax, hblock, hn⟩ :=
      core_steps hcore rfl hdes (hcharged script .mcs8051 hinit) hvm h0 h1
    refine ⟨by omega, by omega, fun script' hinit' => ?_⟩
    obtain ⟨rfl, -⟩ := Prod.mk.inj (Except.ok.inj (hinit.symm.trans hinit'))
    refine ⟨n, st, ?_, ?_, by omega⟩
    · rw [hcount]
      exact hrun
    · have hle : step ≤ (maxStep tx.ullFees ullBurnFactor).toNat := hmax
      omega
  | lua =>
    have hle := hlua _ r rfl hvm
    have hzero : r.llStep.toInt ≠ 0 := fun hz => h0 (Int64.toInt.inj hz)
    have hminus : r.llStep.toInt ≠ -1 := fun hz => h1 (Int64.toInt.inj hz)
    obtain ⟨hcount, hlt⟩ := Int64_toUInt64_of_nonneg (show 0 ≤ r.llStep.toInt by omega)
    refine ⟨by omega, hlt, fun script' hinit' => ?_⟩
    cases (Prod.mk.inj (Except.ok.inj (hinit.symm.trans hinit'))).2

end CVmRunEvn

/-! ## The transactions of a block -/

/-- The contract a transaction calls makes calls that cost. -/
def CTransaction.Charged (node : Node) (lib : CVm8051.VmLibrary) (tx : CTransaction) (nHeight : ℤ)
    (nFuelRate : Int32) (vs : Views) : Prop :=
  ∀ des view logs script type, tx.cDesUserId = .regID des →
    tx.transfer node nHeight vs.view = .ok (view, logs) →
    CVmRunEvn.intial vs.scriptDB des tx = .ok (script, type) →
    (CVmRunEvn.vmInput node tx view vs.scriptDB nHeight (int32ToUInt64 (getFuelRate node vs.scriptDB
      ((CBaseTransaction.transaction tx).getHash node.cr.Hash) nFuelRate)) script type).Charged node lib des

namespace CBlock

open CVm8051

variable {node : Node} {lib : VmLibrary} {b : CBlock} {nHeight : ℤ} {cache : CTransactionDBCache}

/-- So do the contracts of transactions that are executed in order. -/
def CallsCharged (node : Node) (lib : VmLibrary) (b : CBlock) (nHeight : ℤ) (vs : Views) :
    List (CBaseTransaction × ℕ) → Prop
  | [] => True
  | item :: items =>
    (∀ tx, item.1 = .transaction tx → tx.chTxType = .contract →
      tx.Charged node lib nHeight b.nFuelRate vs) ∧
    ∀ e, item.1.executeTx node item.2 nHeight b.nFuelRate vs = .ok e →
      CallsCharged node lib b nHeight e.views items

/-- The run steps of transactions that are executed in order. -/
def executedSteps (node : Node) (b : CBlock) (nHeight : ℤ) (vs : Views) :
    List (CBaseTransaction × ℕ) → Exec (List UInt64)
  | [] => .ok []
  | item :: items => do
    let e ← item.1.executeTx node item.2 nHeight b.nFuelRate vs
    let rest ← executedSteps node b nHeight e.views items
    return e.ullRunStep :: rest

theorem executeTx_counted (hcore : node.Mcs8051 lib) (hlua : node.LuaCounts)
    {item : CBaseTransaction × ℕ} {vs : Views} {e : Executed} (hfits : item.1.ScriptFits)
    (hcharged : ∀ tx, item.1 = .transaction tx → tx.chTxType = .contract →
      tx.Charged node lib nHeight b.nFuelRate vs)
    (h : item.1.executeTx node item.2 nHeight b.nFuelRate vs = .ok e) :
    e.ullRunStep.toNat < 2 ^ 63 := by
  by_cases hcontract : item.1.chTxType = .contract
  · obtain ⟨t, i⟩ := item
    dsimp only at hcontract h hcharged
    cases t with
    | reward tx => cases hcontract
    | registerAccount tx => cases hcontract
    | registerApp tx => cases hcontract
    | transaction tx =>
      have htype : tx.chTxType = .contract := by
        cases htx : tx.chTxType with
        | contract => rfl
        | common =>
          have hct : tx.chTxType.toTxType = .contract := hcontract
          rw [htx] at hct
          cases hct
      obtain ⟨view, logs, vs', clogs, dblog, alogs, htrans, hexec, -⟩ :=
        CTransaction.executeTx_cases h
      unfold CTransaction.executeByType at hexec
      rw [htype] at hexec
      obtain ⟨des, out, view', rel, hdes, hrun, -, -, -, -, hstep⟩ :=
        CTransaction.executeContract_cases hexec
      rw [hstep]
      exact (CVmRunEvn.run_steps hcore hlua hdes (fun script type hinit =>
        hcharged tx rfl htype des view logs script type hdes htrans hinit) hrun).2.1
  · exact CBaseTransaction.executeTx_steps hfits hcontract h

/-- No step count of such transactions wraps. -/
theorem stepsCounted_of_charged (hcore : node.Mcs8051 lib) (hlua : node.LuaCounts)
    {items : List (CBaseTransaction × ℕ)} (vs : Views) (hfits : ∀ item ∈ items, item.1.ScriptFits)
    (hcharged : b.CallsCharged node lib nHeight vs items) : b.StepsCounted node nHeight vs items := by
  induction items generalizing vs with
  | nil => trivial
  | cons item items ih =>
    intro e he
    obtain ⟨hitem, hrest⟩ := hcharged
    exact ⟨executeTx_counted hcore hlua (hfits item List.mem_cons_self) hitem he,
      ih e.views (fun item' hitem' => hfits item' (List.mem_cons_of_mem _ hitem')) (hrest e he)⟩

/-- Where no step count wraps, the loop of `ConnectBlock` has the exact sum. -/
theorem connectTxs_steps {items : List (CBaseTransaction × ℕ)} {st st' : TxsRun}
    (hcounted : b.StepsCounted node nHeight st.views items) (hsteps : st.ullTotalRunStep.toNat ≤ 12000000)
    (h : items.foldlM (b.connectTx node nHeight cache) st = .ok st') :
    ∃ steps, b.executedSteps node nHeight st.views items = .ok steps ∧
      (∀ n ∈ steps, n.toNat < 2 ^ 63) ∧
      st'.ullTotalRunStep.toNat = st.ullTotalRunStep.toNat + (steps.map UInt64.toNat).sum := by
  induction items generalizing st with
  | nil =>
    obtain rfl := Except.ok.inj h
    refine ⟨[], rfl, ?_, rfl⟩
    intro n hn
    cases hn
  | cons item items ih =>
    rw [List.foldlM_cons, Except.bind_eq_ok] at h
    obtain ⟨st₁, h1, h2⟩ := h
    obtain ⟨e, llFuel, he, -, hle, rfl⟩ := connectTx_ok h1
    obtain ⟨hlt, hrest⟩ := hcounted e he
    have hmax : maxBlockRunStep.toNat = 12000000 := rfl
    have hadd : (st.ullTotalRunStep + e.ullRunStep).toNat
        = st.ullTotalRunStep.toNat + e.ullRunStep.toNat := by
      rw [UInt64.toNat_add]
      omega
    have hle' := UInt64.le_iff_toNat_le.mp hle
    obtain ⟨steps, hrun, hsmall, hsum⟩ := ih hrest (by dsimp only; omega) h2
    refine ⟨e.ullRunStep :: steps, ?_, ?_, ?_⟩
    · unfold executedSteps
      rw [he, Except.ok_bind, hrun]
      rfl
    · intro n hn
      rcases List.mem_cons.mp hn with rfl | hn
      · exact hlt
      · exact hsmall n hn
    · dsimp only at hsum
      rw [List.map_cons, List.sum_cons]
      omega

/-- Where every call of the 8051 core costs at least a step, its runs end within their budget, and what
they report is at least what they ran; then the run steps of a block are counts, and so is their sum. -/
theorem run_steps_exact (node : Node) (lib : VmLibrary) :
    (∀ vRom inputData behind db caches tx view des nHeight maxstep,
      CVm8051.CallsCharged node lib tx view des nHeight maxstep (.start vRom inputData behind db caches) →
      (∃ n res, Run node lib tx view des nHeight maxstep (.start vRom inputData behind db caches) n res ∧
        n ≤ maxstep.toNat) ∧
      ∀ n step st, Run node lib tx view des nHeight maxstep (.start vRom inputData behind db caches) n
          (.ok (step, st)) → step ≠ 0 → step ≠ -1 → 1 ≤ step ∧ step ≤ maxstep.toNat ∧ n ≤ step) ∧
    (node.Mcs8051 lib → node.LuaCounts → ∀ tx des view s nHeight rate out,
      tx.cDesUserId = .regID des →
      (∀ script type, CVmRunEvn.intial s des tx = .ok (script, type) →
        (CVmRunEvn.vmInput node tx view s nHeight rate script type).Charged node lib des) →
      CVmRunEvn.run node tx des view s nHeight rate = .ok out →
      1 ≤ out.ullRunStep.toNat ∧ out.ullRunStep.toNat < 2 ^ 63 ∧
        ∀ script, CVmRunEvn.intial s des tx = .ok (script, .mcs8051) → ∃ n st,
          Run node lib tx view des nHeight (CVmRunEvn.maxStep tx.ullFees rate)
            ((CVmRunEvn.vmInput node tx view s nHeight rate script .mcs8051).start lib) n
            (.ok ((out.ullRunStep.toNat : ℤ), st)) ∧
          out.ullRunStep.toNat ≤ (CVmRunEvn.maxStep tx.ullFees rate).toNat ∧
          n ≤ out.ullRunStep.toNat) ∧
    (node.Mcs8051 lib → node.LuaCounts → ∀ (b : CBlock) nHeight cache vs st,
      (∀ item ∈ b.otherTxs, item.1.ScriptFits) → b.CallsCharged node lib nHeight vs b.otherTxs →
      b.connectTxs node nHeight cache vs = .ok st →
      ∃ steps, b.executedSteps node nHeight vs b.otherTxs = .ok steps ∧
        (∀ n ∈ steps, n.toNat < 2 ^ 63) ∧
        st.ullTotalRunStep.toNat = (steps.map UInt64.toNat).sum) := by
  refine ⟨?_, ?_, ?_⟩
  · intro vRom inputData behind db caches tx view des nHeight maxstep hcalls
    obtain ⟨hhalts, hcount⟩ := run_halts maxstep rfl hcalls
    refine ⟨hhalts, fun n step st hrun h0 h1 => ?_⟩
    obtain ⟨hpos, hmax, -, hn⟩ := hcount n step st hrun h0 h1
    exact ⟨hpos, hmax, hn⟩
  · intro hcore hlua tx des view s nHeight rate out hdes hcharged hrun
    exact CVmRunEvn.run_steps hcore hlua hdes hcharged hrun
  · intro hcore hlua b nHeight cache vs st hfits hcharged h
    have hcounted := stepsCounted_of_charged hcore hlua vs hfits hcharged
    obtain ⟨steps, hsteps, hsmall, hsum⟩ :=
      connectTxs_steps hcounted (Nat.zero_le _) (connectTxs_ok h).1
    exact ⟨steps, hsteps, hsmall, hsum.trans (Nat.zero_add _)⟩

end CBlock

/-! ## Programs for the core -/

namespace Sample

open CVm8051 Machine

def vmLibrary : VmLibrary where
  des _ _ _ := Vector.replicate 8 0
  readTx _ := none
  bDbTraversal := false
  layers input := ⟨(input.scriptDB, [∅]), List.cons_ne_nil _ _, fun _ => rfl⟩
  behind _ _ := 0

/-- At 0x20 it calls a method, whose parameters are the contract, and then succeeds. -/
def callRom (method : UInt8) : Bytes :=
  [0x02, 0x00, 0x20] ++ List.replicate 15 0 ++ [0x22] ++ List.replicate 13 0 ++
    [0x90, 0xEF, 0xFD, 0x74, method, 0xF0, 0x12, 0x00, 0x12,
      0x90, 0xEF, 0xFD, 0x74, 1, 0xF0, 0x02, 0x00, 0x08]

/-- The reserved opcode at 0x12. -/
def endlessRom : Bytes := [0x02, 0x00, 0x12] ++ List.replicate 15 0 ++ [0xA5]

/-- Three bytes written, and a record deleted. -/
def writeParas : Bytes := [1, 0, 0xAA, 3, 0, 1, 2, 3]
def deleteParas : Bytes := [1, 0, 0xAA]

/-- A contract at ⟨60, 1⟩ is called. -/
def vmCall (vchContract : Bytes) : CTransaction :=
  ⟨.contract, 2, 1, .regID ⟨50, 1⟩, .regID ⟨60, 1⟩, 20000, 0, vchContract, []⟩

/-- Its code, and twenty bytes of its data. -/
def vmScripts (rom : Bytes) : CScriptDBViewCache :=
  scriptsOf [(CScriptDBViewCache.scriptKey (CRegID.getVec6 ⟨60, 1⟩), UInt8.ofNat rom.length :: rom ++ [0]),
    (CScriptDBViewCache.scriptDataKey (CRegID.getVec6 ⟨60, 1⟩) [0xAA], List.replicate 20 7),
    (CScriptDBViewCache.scriptDataCountKey (CRegID.getVec6 ⟨60, 1⟩), CScriptDBViewCache.countRecord 1)]

/-- The caller and the contract, over genesis. -/
def vmView : CAccountViewCache :=
  viewOf [holder, { CAccount.fresh (keyId 8) with cRegID := ⟨60, 1⟩ }]
    [(⟨50, 1⟩, keyId 5), (⟨60, 1⟩, keyId 8)] (genesisBlock.getHash crypto.Hash)

/-- The core, as far as a hundred turns take it. -/
def coreVm (node : Node) (input : VmInput) : Option VmResult :=
  match input.type, input.tx.cDesUserId with
  | .mcs8051, .regID des =>
    if input.maxStep = 0 then none
    else match runFor (turn node vmLibrary input.tx input.view des input.nHeight input.maxStep) 100
        (input.start vmLibrary) with
      | some (.ok (step, st)) => some ⟨Int64.ofInt step, st.dbOps, st.output, st.appOperate, false⟩
      | _ => none
  | _, _ => none

def coreNode : Node :=
  { chainNode [withEntry genesisBlock] with vm := coreVm (chainNode [withEntry genesisBlock]) }

theorem coreNode_mcs8051 : coreNode.Mcs8051 vmLibrary := by
  intro input des r htype hdes hr
  have hvm : coreVm (chainNode [withEntry genesisBlock]) input = some r := hr
  unfold coreVm at hvm
  rw [htype, hdes] at hvm
  dsimp only at hvm
  split at hvm
  · cases hvm
  · next hzero =>
    split at hvm
    · next step st hrun =>
      obtain rfl := Option.some.inj hvm
      obtain ⟨n, hn⟩ := runs_of_runFor hrun
      refine ⟨n, step, st, ?_, rfl, rfl, rfl, rfl⟩
      unfold CVm8051.Run
      rw [if_neg hzero]
      exact hn
    · cases hvm

theorem coreNode_luaCounts : coreNode.LuaCounts := by
  intro input r htype hr
  have hvm : coreVm (chainNode [withEntry genesisBlock]) input = some r := hr
  unfold coreVm at hvm
  rw [htype] at hvm
  cases hvm

/-- A block in which the contract is called. -/
def callBlock : CBlock :=
  { firstHeader 100 with
    vptx := [.reward ⟨2, .regID ⟨0, 1⟩, 0, 1⟩, .transaction (vmCall writeParas)] }

def callViews : Views := ⟨vmView, vmScripts (callRom 17)⟩

/-- Whether the calls of a contract cost, as far as a hundred turns take it. -/
def callsCost (node : Node) (tx : CTransaction) (nHeight : ℤ) (nFuelRate : Int32) (vs : Views) : Bool :=
  match tx.cDesUserId, tx.transfer node nHeight vs.view with
  | .regID des, .ok (view, _) =>
    match CVmRunEvn.intial vs.scriptDB des tx with
    | .ok (script, type) =>
      let rate := int32ToUInt64 (getFuelRate node vs.scriptDB
        ((CBaseTransaction.transaction tx).getHash node.cr.Hash) nFuelRate)
      let input := CVmRunEvn.vmInput node tx view vs.scriptDB nHeight rate script type
      passes (turn node vmLibrary tx view des nHeight input.maxStep)
        (callCosts node vmLibrary tx view des nHeight) 100 (input.start vmLibrary)
    | .error _ => true
  | _, _ => true

theorem charged_of_callsCost {node : Node} {tx : CTransaction} {nHeight : ℤ} {nFuelRate : Int32}
    {vs : Views} (h : callsCost node tx nHeight nFuelRate vs = true) :
    tx.Charged node vmLibrary nHeight nFuelRate vs := by
  intro des view logs script type hdes htrans hinit _
  unfold callsCost at h
  simp only [hdes, htrans, hinit] at h
  exact callsCharged_of_passes h

/-- The block's sum is the eleven steps that the run of its contract counts over ten turns. -/
theorem run_steps_exact_call : ∃ st steps,
    callBlock.connectTxs coreNode 1 .empty callViews = .ok st ∧
    callBlock.executedSteps coreNode 1 callViews callBlock.otherTxs = .ok steps ∧
    steps = [11] ∧ st.ullTotalRunStep.toNat = 11 := by
  obtain ⟨-, -, hblock⟩ := CBlock.run_steps_exact coreNode vmLibrary
  obtain ⟨st, hst⟩ := Except.exists_of_toOption
    (show (callBlock.connectTxs coreNode 1 .empty callViews).toOption.isSome = true by decide +kernel)
  have hitems : callBlock.otherTxs = [(.transaction (vmCall writeParas), 1)] := rfl
  have hcharged : callBlock.CallsCharged coreNode vmLibrary 1 callViews callBlock.otherTxs := by
    rw [hitems]
    refine ⟨?_, fun e _ => trivial⟩
    rintro tx htx -
    obtain rfl := CBaseTransaction.transaction.inj htx
    exact charged_of_callsCost (by decide +kernel)
  obtain ⟨steps, hsteps, -, hsum⟩ := hblock coreNode_mcs8051 coreNode_luaCounts callBlock 1 .empty
    callViews st (by
      rw [hitems]
      rintro item hitem r hr
      obtain rfl := List.mem_singleton.mp hitem
      cases hr) hcharged hst
  have heleven : (callBlock.executedSteps coreNode 1 callViews callBlock.otherTxs).toOption = some [11] := by
    decide +kernel
  rw [hsteps] at heleven
  obtain rfl := Option.some.inj heleven
  exact ⟨st, [11], hst, hsteps, rfl, hsum⟩

/-! ### Calls that give steps back -/

/-- The states of the endless run: the reserved opcode waits where a call is made, and the call area is
blank. -/
structure Endless (r : RunState) : Prop where
  pc : r.cpu.pc = 0 ∨ r.cpu.pc = 0x0012
  jump : r.cpu.exeFile 0 = 0x02 ∧ r.cpu.exeFile 1 = 0 ∧ r.cpu.exeFile 2 = 0x12
  reserved : r.cpu.exeFile 0x0012 = 0xA5
  method : r.cpu.methodID = 0
  share : r.cpu.exRam 0xEFFF = 0 ∧ r.cpu.exRam 0xF000 = 0
  step : r.step = 0

theorem Endless.stepped {r : RunState} (h : Endless r) :
    r.stepped = { r with cpu := { r.cpu with pc := 0x0012 }, step := 1 } := by
  obtain ⟨hpc, ⟨h0, h1, h2⟩, hreserved, -, -, hstep⟩ := h
  obtain ⟨⟨chipRam, chipSfr, exRam, exeFile, pc⟩, st, step⟩ := r
  dsimp only at *
  subst hstep
  rcases hpc with rfl | rfl
  · have hcode : CVm8051.getOpcode ⟨chipRam, chipSfr, exRam, exeFile, 0⟩ = 0x02 := h0
    have haddr : CVm8051.opcodeAddr ⟨chipRam, chipSfr, exRam, exeFile, 0⟩ = 0x0012 := by
      show (exeFile 1).toUInt16 <<< 8 ||| (exeFile 2).toUInt16 = 0x0012
      rw [h1, h2]
      rfl
    unfold RunState.stepped
    dsimp only
    rw [hcode]
    show (⟨⟨chipRam, chipSfr, exRam, exeFile, CVm8051.opcodeAddr ⟨chipRam, chipSfr, exRam, exeFile, 0⟩⟩,
      st, 0 + 1⟩ : RunState) = _
    rw [haddr]
    rfl
  · have hcode : CVm8051.getOpcode ⟨chipRam, chipSfr, exRam, exeFile, 0x0012⟩ = 0xA5 := hreserved
    unfold RunState.stepped
    dsimp only
    rw [hcode]
    rfl

/-- With a blank call area there are no parameters. -/
theorem getData_blank {c : CVm8051} (h : c.exRam 0xEFFF = 0 ∧ c.exRam 0xF000 = 0) :
    getData c.share = none := by
  have hlen : getParaLen c.share = 0 := by
    have h0 : c.share.getD 0 0 = c.exRam 0xEFFF := c.share_getD (by decide)
    have h1 : c.share.getD 1 0 = c.exRam 0xF000 := c.share_getD (by decide)
    unfold getParaLen
    rw [h0, h1, h.1, h.2]
    rfl
  unfold getData
  rw [hlen]
  rfl

theorem Endless.clearShare {r : RunState} (h : Endless r) :
    Endless { r with cpu := { r.cpu with pc := 0x0012 }.clearShare } where
  pc := .inr rfl
  jump := h.jump
  reserved := h.reserved
  method := by
    unfold methodID
    rw [clearShare_exRam, clearShare_exRam, if_neg (by decide), if_neg (by decide)]
    exact h.method
  share := by
    rw [clearShare_exRam, clearShare_exRam, if_pos (by decide), if_pos (by decide)]
    exact ⟨rfl, rfl⟩
  step := h.step

/-- Its turns go on for ever, within any limit. -/
theorem Endless.turn {node : Node} {tx : CTransaction} {view : CAccountViewCache} {des : CRegID}
    {nHeight : ℤ} {maxstep : UInt64} (hmax : 0 < maxstep.toInt64.toInt) {r : RunState}
    (h : Endless r) : ∃ u, CVm8051.turn node vmLibrary tx view des nHeight maxstep r = .ok (.inl u) ∧
      Endless u := by
  refine ⟨_, ?_, h.clearShare⟩
  have hblock : maxBlockRunStep.toNat = 12000000 := rfl
  have hcall : CVm8051.externalCall node vmLibrary tx view des nHeight r.stepped = .ok (retFalse, r.st) := by
    rw [h.stepped]
    unfold CVm8051.externalCall callExternalFunc
    have hmethod : ({ r.cpu with pc := 0x0012 } : CVm8051).methodID = 0 := h.method
    have hdata : getData ({ r.cpu with pc := 0x0012 } : CVm8051).share = none := getData_blank h.share
    dsimp only
    rw [hmethod, hdata]
    rfl
  have hpc : r.stepped.cpu.pc = 0x0012 := by
    rw [h.stepped]
  unfold CVm8051.turn
  rw [if_pos hpc, hcall, Except.ok_bind, h.stepped]
  have hstep := h.step
  obtain ⟨cpu, st, step⟩ := r
  dsimp only at hstep
  subst hstep
  unfold afterCall checkStep retFalse
  dsimp only
  rw [if_neg (by decide), if_neg (by decide), if_neg (by omega)]
  rfl

theorem endless_start : Endless (.start endlessRom [] (fun _ => 0) (vmScripts endlessRom) [∅]) where
  pc := by decide +kernel
  jump := by decide +kernel
  reserved := by decide +kernel
  method := by decide +kernel
  share := by decide +kernel
  step := rfl

/-- Two opcodes that call the same method again and again, and a record of twenty bytes deleted for
twelve steps less than none: one run never ends, the other succeeds with a negative count. -/
theorem endless : (¬ ∃ n res, CVm8051.Run Sample.node vmLibrary (vmCall []) vmView ⟨60, 1⟩ 100 10000
      (.start endlessRom [] (fun _ => 0) (vmScripts endlessRom) [∅]) n res) ∧
    ∃ n st, CVm8051.Run Sample.node vmLibrary (vmCall deleteParas) vmView ⟨60, 1⟩ 100 10000
      (.start (callRom 18) deleteParas (fun _ => 0) (vmScripts (callRom 18)) [∅]) n (.ok (-12, st)) := by
  constructor
  · rintro ⟨n, res, hrun⟩
    exact not_halts_of_invariant (P := Endless) endless_start (fun r hr => hr.turn (by decide))
      ⟨n, res, hrun⟩
  · have hresult : ((runFor (CVm8051.turn Sample.node vmLibrary (vmCall deleteParas) vmView ⟨60, 1⟩ 100
        10000) 100 (.start (callRom 18) deleteParas (fun _ => 0) (vmScripts (callRom 18)) [∅])).map
        fun res => res.toOption.map Prod.fst) = some (some (-12)) := by decide +kernel
    obtain ⟨res, hres, hstep⟩ := Option.map_eq_some_iff.mp hresult
    obtain ⟨⟨step, st⟩, hok, rfl⟩ := Option.map_eq_some_iff.mp hstep
    obtain ⟨n, hn⟩ := runs_of_runFor hres
    cases res with
    | error e => cases hok
    | ok out =>
      obtain rfl := Option.some.inj hok
      exact ⟨n, st, hn⟩

end Sample

end Dacrs
