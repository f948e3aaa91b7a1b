import Dacrs.Mining
import Dacrs.Reward

/-!
# Assembling a block

`CreateNewBlock` executes transactions of the memory pool one after the other and takes those that
succeed.  The pool is given in the order in which the priority queue hands its transactions out, each
with the outcome of the one comparison of its fee that is made; the clock and the required difficulty
are given too.

The loop keeps its own accounts of run steps and fuel.  `createNewBlock_executes` says that a plain
execution of the block gives the same ones, and `miner_validator_iff` when the header passes what the
validator recomputes from them.
-/

open Codec (Bytes)

namespace Dacrs

/-- `-blockmaxsize` and `-blockminsize`. -/
structure BlockSizes where
  blockmaxsize : UInt32
  blockminsize : UInt32

namespace BlockSizes

def unBlockMaxSize (s : BlockSizes) : UInt32 :=
  max 1000 (min (UInt32.ofNat (maxBlockSize - 1000)) s.blockmaxsize)

def unBlockMinSize (s : BlockSizes) : UInt32 := min s.unBlockMaxSize s.blockminsize

end BlockSizes

/-- An entry of the priority queue. -/
structure TxPriority where
  tx : CBaseTransaction
  /-- `dFeePerKb < CTransaction::m_sMinRelayTxFee` -/
  lowFee : Bool

namespace CBlock

/-- What the loop of `CreateNewBlock` carries. -/
structure Assembly where
  views : Views
  vptx : List CBaseTransaction
  llFees : Int64
  ullBlockSize : UInt64
  ullTotalRunStep : UInt64
  llTotalFuel : Int64

/-- `ullBlockTx`: the transactions taken so far. -/
def Assembly.ullBlockTx (st : Assembly) : ℕ := st.vptx.length

section
variable (node : Node) (sizes : BlockSizes) (nFuelRate : Int32) (nHeight : ℤ)
  (cache : CTransactionDBCache)

/-- `if (!ExecuteTx(…)) continue`: only an exception goes further. -/
def executeOrSkip (st : Assembly) (tx : CBaseTransaction) : Exec (Option Executed) :=
  match tx.executeTx node (st.ullBlockTx + 1 : ℕ) nHeight nFuelRate st.views with
  | .ok e => .ok (some e)
  | .error (.fail _) => .ok none
  | .error (.throw what) => .error (.throw what)

/-- A transaction whose execution succeeded, unless it runs too many steps. -/
def takeTx (st : Assembly) (tx : CBaseTransaction) (e : Executed) : Exec Assembly :=
  if maxBlockRunStep ≤ st.ullTotalRunStep + e.ullRunStep then .ok st
  else do
    let llFuel ← getFuel node.chainActive tx.chTxType e.ullRunStep nFuelRate
    return { views := e.views
             vptx := st.vptx ++ [tx]
             llFees := st.llFees + tx.getFee.toInt64
             ullBlockSize := st.ullBlockSize + UInt64.ofNat tx.serialize.length
             ullTotalRunStep := st.ullTotalRunStep + e.ullRunStep
             llTotalFuel := st.llTotalFuel + llFuel.toInt64 }

/-- One turn of the loop. -/
def assembleTx (st : Assembly) (item : TxPriority) : Exec Assembly :=
  let nTxSize := (UInt32.ofNat item.tx.serialize.length).toUInt64
  if sizes.unBlockMaxSize.toUInt64 ≤ st.ullBlockSize + nTxSize then .ok st
  else if item.lowFee ∧ sizes.unBlockMinSize.toUInt64 ≤ st.ullBlockSize + nTxSize then .ok st
  else if cache.isContainTx (item.tx.getHash node.cr.Hash) then .ok st
  else do
    match ← executeOrSkip node nFuelRate nHeight st item.tx with
    | none => return st
    | some e => takeTx node nFuelRate st item.tx e

/-- `CRewardTransaction()`. -/
def newReward : CRewardTransaction where
  nVersion := txVersion2
  cAccount := .null
  ullRewardValue := 0
  nHeight := 0

/-- `CreateNewBlock`: the block and the views it leaves. -/
def createNewBlock (vecPriority : List TxPriority) (unTime unBits : UInt32) (vs : Views) :
    Exec (CBlock × Views) :=
  match node.chainActive with
  | [] => Exec.throw "pIndexPrev is NULL"
  | pIndexPrev :: _ => do
    let nFuelRate := getElementForBurn node.cfg node.chainActive
    let nHeight := (Int32.ofInt (pIndexPrev.nHeight + 1)).toInt
    let empty : CBlock := { CBlockHeader.null with nFuelRate, vptx := [.reward newReward] }
    let st ← vecPriority.foldlM (assembleTx node sizes nFuelRate nHeight cache)
      ⟨vs, [], 0, UInt64.ofNat empty.serialize.length, 0, 0⟩
    Exec.require (0 ≤ st.llFees - st.llTotalFuel) (Exec.throw "assert(llFees - llTotalFuel >= 0)")
    let ullRewardValue := (st.llFees - st.llTotalFuel + posReward).toUInt64
    let header := ({ CBlockHeader.null with
      nFuelRate
      cHashPrevBlock := pIndexPrev.hashBlock
      unTime
      unBits
      llFuel := st.llTotalFuel }).setHeight (UInt32.ofInt (pIndexPrev.nHeight + 1))
    return ({ header with vptx := .reward { newReward with ullRewardValue } :: st.vptx }, st.views)

end

/-! ## The loop is an execution of the block -/

theorem toInt32_ofInt (z : ℤ) : (UInt32.ofInt z).toInt32 = Int32.ofInt z := by
  apply Int32.toBitVec_inj.mp
  show BitVec.ofNat 32 (z % 2 ^ 32).toNat = BitVec.ofInt 32 z
  apply BitVec.eq_of_toNat_eq
  rw [BitVec.toNat_ofNat, BitVec.toNat_ofInt]
  push_cast
  omega

section
variable {node : Node} {sizes : BlockSizes} {b c : CBlock} {cache : CTransactionDBCache}
  {vs vs' : Views} {st st' : Assembly} {burnt : List (UInt64 × UInt64)}
  {l : List (CBaseTransaction × ℕ)}

/-- Only the height and the fuel rate of a block matter to the execution of a list. -/
theorem executeTxs_congr (hheight : b.height = c.height) (hrate : b.nFuelRate = c.nFuelRate)
    (l : List (CBaseTransaction × ℕ)) (vs : Views) :
    executeTxs node b l vs = executeTxs node c l vs := by
  induction l generalizing vs with
  | nil => rfl
  | cons item l ih =>
    unfold executeTxs
    rw [hheight, hrate]
    simp only [ih]

/-- One transaction more. -/
theorem executeTxs_snoc {item : CBaseTransaction × ℕ} {e : Executed} {llFuel : UInt64}
    (hl : executeTxs node b l vs = .ok (vs', burnt))
    (he : item.1.executeTx node item.2 b.height b.nFuelRate vs' = .ok e)
    (hfuel : getFuel node.chainActive item.1.chTxType e.ullRunStep b.nFuelRate = .ok llFuel) :
    executeTxs node b (l ++ [item]) vs = .ok (e.views, burnt ++ [(e.ullRunStep, llFuel)]) := by
  induction l generalizing vs burnt with
  | nil =>
    obtain ⟨rfl, rfl⟩ := Prod.mk.inj (Except.ok.inj hl)
    unfold executeTxs
    simp only [List.nil_append, executeTxs, he, hfuel, Except.ok_bind]
    rfl
  | cons first l ih =>
    unfold executeTxs at hl
    simp only [Except.bind_eq_ok] at hl
    obtain ⟨e', he', llFuel', hfuel', ⟨vs'', burnt'⟩, hrest, hout⟩ := hl
    obtain ⟨rfl, rfl⟩ := Prod.mk.inj (Except.ok.inj hout)
    rw [List.cons_append]
    unfold executeTxs
    simp only [he', hfuel', ih hrest, Except.ok_bind]
    rfl

theorem totalRunStep_snoc (n : UInt64) (e : UInt64 × UInt64) :
    totalRunStep n (burnt ++ [e]) = totalRunStep n burnt + e.1 := by
  unfold totalRunStep
  rw [List.foldl_append]
  rfl

theorem totalFuel_snoc (n : Int64) (e : UInt64 × UInt64) :
    totalFuel n (burnt ++ [e]) = totalFuel n burnt + e.2.toInt64 := by
  unfold totalFuel
  rw [List.foldl_append]
  rfl

theorem StepsWithin.snoc {e : UInt64 × UInt64} (h : StepsWithin burnt)
    (he : totalRunStep 0 burnt + e.1 ≤ maxBlockRunStep) : StepsWithin (burnt ++ [e]) := by
  intro n hn
  rw [List.length_append, List.length_singleton] at hn
  by_cases hlast : n < burnt.length
  · rw [List.take_append_of_le_length (by omega)]
    exact h n hlast
  · have hall : (burnt ++ [e]).take (n + 1) = burnt ++ [e] := by
      apply List.take_of_length_le
      rw [List.length_append, List.length_singleton]
      omega
    rw [hall, totalRunStep_snoc]
    exact he

/-- The accounts of the loop against an execution of the transactions taken so far. -/
structure Assembly.Accounts (node : Node) (b : CBlock) (vs : Views) (st : Assembly)
    (burnt : List (UInt64 × UInt64)) : Prop where
  executed : executeTxs node b (st.vptx.zipIdx 1) vs = .ok (st.views, burnt)
  steps : st.ullTotalRunStep = totalRunStep 0 burnt
  fuel : st.llTotalFuel = totalFuel 0 burnt
  within : StepsWithin burnt
  fees : st.llFees = st.vptx.foldl (fun llFees tx => llFees + tx.getFee.toInt64) 0

theorem executeOrSkip_eq_some {nFuelRate : Int32} {nHeight : ℤ} {tx : CBaseTransaction} {e : Executed}
    (h : executeOrSkip node nFuelRate nHeight st tx = .ok (some e)) :
    tx.executeTx node (st.ullBlockTx + 1 : ℕ) nHeight nFuelRate st.views = .ok e := by
  unfold executeOrSkip at h
  split at h
  · next heq =>
    rw [heq]
    exact congrArg Except.ok (Option.some.inj (Except.ok.inj h))
  · cases h
  · cases h

/-- A turn leaves the assembly as it is or takes the transaction. -/
theorem Assembly.Accounts.assembleTx (h : st.Accounts node b vs burnt) {item : TxPriority}
    (hst : assembleTx node sizes b.nFuelRate b.height cache st item = .ok st') :
    ∃ burnt', st'.Accounts node b vs burnt' := by
  unfold CBlock.assembleTx at hst
  dsimp only at hst
  have hsame : Except.ok st = (.ok st' : Exec Assembly) → ∃ burnt', st'.Accounts node b vs burnt' := by
    intro heq
    obtain rfl := Except.ok.inj heq
    exact ⟨burnt, h⟩
  split at hst
  · exact hsame hst
  · split at hst
    · exact hsame hst
    · split at hst
      · exact hsame hst
      · obtain ⟨o, hexec, hst⟩ := Except.bind_eq_ok.mp hst
        cases o with
        | none => exact hsame hst
        | some e =>
          have he := executeOrSkip_eq_some hexec
          dsimp only at hst
          unfold takeTx at hst
          split at hst
          · exact hsame hst
          · next hmax =>
            obtain ⟨llFuel, hfuel, hst⟩ := Except.bind_eq_ok.mp hst
            obtain rfl := Except.ok.inj hst
            have hindex : 1 + st.vptx.length = st.ullBlockTx + 1 := Nat.add_comm 1 _
            refine ⟨burnt ++ [(e.ullRunStep, llFuel)], ?_, ?_, ?_, ?_, ?_⟩
            · show executeTxs node b ((st.vptx ++ [item.tx]).zipIdx 1) vs = _
              rw [List.zipIdx_append, hindex]
              exact executeTxs_snoc h.executed he hfuel
            · rw [totalRunStep_snoc, ← h.steps]
            · rw [totalFuel_snoc, ← h.fuel]
            · apply h.within.snoc
              rw [← h.steps]
              exact UInt64.le_of_lt (UInt64.not_le.mp hmax)
            · show st.llFees + item.tx.getFee.toInt64 = (st.vptx ++ [item.tx]).foldl _ 0
              rw [List.foldl_append, h.fees]
              rfl


/-- A template: its transactions, executed from the views it was made on, give its fuel. -/
theorem createNewBlock_executes {vecPriority : List TxPriority} {unTime unBits : UInt32}
    (h : createNewBlock node sizes cache vecPriority unTime unBits vs = .ok (b, vs')) :
    ∃ burnt prtx rest, b.vptx = .reward prtx :: rest ∧
      executeTxs node b (rest.zipIdx 1) vs = .ok (vs', burnt) ∧ StepsWithin burnt ∧
      b.nFuelRate = getElementForBurn node.cfg node.chainActive ∧ b.llFuel = totalFuel 0 burnt ∧
      prtx.ullRewardValue =
        (rest.foldl (fun llFees tx => llFees + tx.getFee.toInt64) 0 - b.llFuel + posReward).toUInt64 := by
  unfold createNewBlock at h
  split at h
  · cases h
  · next pIndexPrev _ hchain =>
    simp only [Except.bind_eq_ok] at h
    obtain ⟨st, hrun, -, -, hout⟩ := h
    obtain ⟨hb, rfl⟩ := Prod.mk.inj (Except.ok.inj hout)
    have hheight : b.height = (Int32.ofInt (pIndexPrev.nHeight + 1)).toInt := by
      rw [← hb, ← toInt32_ofInt]
      unfold CBlockHeader.setHeight CBlock.height
      split <;> rfl
    have hrate : b.nFuelRate = getElementForBurn node.cfg node.chainActive := by
      rw [← hb]
      unfold CBlockHeader.setHeight
      split <;> rfl
    have hfuel : b.llFuel = st.llTotalFuel := by
      rw [← hb]
      unfold CBlockHeader.setHeight
      split <;> rfl
    rw [← hheight, ← hrate] at hrun
    obtain ⟨burnt, hst⟩ : ∃ burnt, st.Accounts node b vs burnt := by
      refine Except.foldlM_invariant (fun st : Assembly => ∃ burnt, st.Accounts node b vs burnt) _ _ ?_
        ⟨[], rfl, rfl, rfl, fun n hn => absurd hn (Nat.not_lt_zero n), rfl⟩ hrun
      rintro st item st' - ⟨burnt, hst⟩ hstep
      exact hst.assembleTx hstep
    refine ⟨burnt, _, st.vptx, by rw [← hb], hst.executed, hst.within, hrate, ?_, ?_⟩
    · rw [hfuel, hst.fuel]
    · rw [hfuel, ← hst.fees]

/-! ## The validator's loop -/

/-- Where the loop of `ConnectBlock` gets through, it is the plain execution. -/
theorem connectTx_foldlM {nHeight : ℤ} {run run' : TxsRun} (hheight : nHeight = b.height)
    (h : l.foldlM (b.connectTx node nHeight cache) run = .ok run') :
    ∃ burnt, executeTxs node b l run.views = .ok (run'.views, burnt) ∧
      run'.ullTotalRunStep = totalRunStep run.ullTotalRunStep burnt ∧
      run'.llTotalFuel = totalFuel run.llTotalFuel burnt := by
  induction l generalizing run with
  | nil =>
    obtain rfl := Except.ok.inj h
    exact ⟨[], rfl, rfl, rfl⟩
  | cons item l ih =>
    rw [List.foldlM_cons] at h
    obtain ⟨next, hstep, hrest⟩ := Except.bind_eq_ok.mp h
    obtain ⟨e, llFuel, he, hfuel, -, rfl⟩ := connectTx_ok hstep
    obtain ⟨burnt, hrun, hsteps, hsum⟩ := ih hrest
    rw [hheight] at he
    refine ⟨(e.ullRunStep, llFuel) :: burnt, ?_, hsteps, hsum⟩
    unfold executeTxs
    simp only [he, hfuel, hrun, Except.ok_bind]
    rfl

end

/-! ## Miner and validator -/

/-- The exact sum of the fuels. -/
def exactFuel (burnt : List (UInt64 × UInt64)) : ℕ := (burnt.map fun e => e.2.toNat).sum

theorem totalFuel_eq (burnt : List (UInt64 × UInt64)) :
    ((totalFuel 0 burnt).toUInt64.toNat : ℤ) = (exactFuel burnt : ℤ) % 2 ^ 64 := by
  have hzero : (0 : Int64).toUInt64.toNat = 0 := rfl
  have hall := foldl_add_toInt64 (fun e : UInt64 × UInt64 => e.2) burnt 0
  unfold totalFuel exactFuel
  rw [hall, hzero]
  omega

/-- The validator accepts the steps and recomputes the fuel rate, the fuel and the reward. -/
def Recomputed (node : Node) (b : CBlock) (vs : Views) : Prop :=
  ∃ vs' burnt, executeTxs node b b.otherTxs vs = .ok (vs', burnt) ∧ StepsWithin burnt ∧
    b.nFuelRate = getElementForBurn node.cfg node.chainActive ∧
    totalFuel 0 burnt = CBlockHeader.fuelNarrowed b.llFuel ∧
    ∃ prtx, b.rewardTx = .ok prtx ∧ prtx.ullRewardValue = b.validReward

/-- The fuels of the block's transactions add up to a number of 32 bits. -/
def FuelFits (node : Node) (b : CBlock) (vs : Views) : Prop :=
  ∀ vs' burnt, executeTxs node b b.otherTxs vs = .ok (vs', burnt) → exactFuel burnt % 2 ^ 64 < 2 ^ 32

/-- Completing a block keeps everything the validator compares. -/
theorem createPosTx_keeps {node : Node} {wallet : CWallet} {setCreateKey : List CKeyID} {b b' : CBlock}
    {view tip : CAccountViewCache} {pPrevIndex : CBlockIndex} {prtx : CRewardTransaction}
    {rest : List CBaseTransaction} (hvptx : b.vptx = .reward prtx :: rest)
    (h : createPosTx node wallet setCreateKey b view tip pPrevIndex = .ok b') :
    b'.height = b.height ∧ b'.nFuelRate = b.nFuelRate ∧ b'.llFuel = b.llFuel ∧
      ∃ prtx', b'.vptx = .reward prtx' :: rest ∧ prtx'.ullRewardValue = prtx.ullRewardValue := by
  obtain ⟨prtx', rest', a, c, nNonce, htxs, -, -, -, -, -, htry⟩ := createPosTx_ok h
  obtain ⟨r, vSign, -, -, -, rfl⟩ := tryNonce_eq_some htry
  obtain ⟨hprtx, rfl⟩ := List.cons.inj (hvptx.symm.trans htxs)
  obtain rfl := CBaseTransaction.reward.inj hprtx
  exact ⟨rfl, rfl, rfl, _, rfl, rfl⟩

section
variable {node : Node} {sizes : BlockSizes} {cache : CTransactionDBCache}
  {vecPriority : List TxPriority} {unTime unBits : UInt32} {vs vs' : Views} {wallet : CWallet}
  {setCreateKey : List CKeyID} {b b' : CBlock} {tip : CAccountViewCache} {pPrevIndex : CBlockIndex}

/-- A block that was assembled and completed, against its execution. -/
theorem created_executes
    (hnew : createNewBlock node sizes cache vecPriority unTime unBits vs = .ok (b, vs'))
    (hpos : createPosTx node wallet setCreateKey b vs'.view tip pPrevIndex = .ok b') :
    ∃ burnt prtx, executeTxs node b' b'.otherTxs vs = .ok (vs', burnt) ∧ StepsWithin burnt ∧
      b'.nFuelRate = getElementForBurn node.cfg node.chainActive ∧ b'.llFuel = totalFuel 0 burnt ∧
      b'.rewardTx = .ok prtx ∧
      prtx.ullRewardValue = (b'.getFee - b'.llFuel + posReward).toUInt64 := by
  obtain ⟨burnt, prtx, rest, hvptx, hexec, hwithin, hrate, hfuel, hreward⟩ :=
    createNewBlock_executes hnew
  obtain ⟨hheight, hrate', hfuel', prtx', hvptx', hvalue⟩ := createPosTx_keeps hvptx hpos
  have hother : b'.otherTxs = rest.zipIdx 1 := by
    unfold otherTxs
    rw [hvptx']
    rfl
  have hfee : b'.getFee = rest.foldl (fun llFees tx => llFees + tx.getFee.toInt64) 0 := by
    unfold getFee
    rw [hvptx']
    rfl
  refine ⟨burnt, prtx', ?_, hwithin, hrate'.trans hrate, hfuel'.trans hfuel, ?_, ?_⟩
  · rw [hother, executeTxs_congr hheight hrate', hexec]
  · unfold rewardTx
    rw [hvptx']
  · rw [hvalue, hreward, hfee, hfuel']

/-- `GetFuel` keeps a running sum of fuels exactly when 32 bits hold their sum. -/
theorem fuelNarrowed_totalFuel (burnt : List (UInt64 × UInt64)) :
    CBlockHeader.fuelNarrowed (totalFuel 0 burnt) = totalFuel 0 burnt
      ↔ exactFuel burnt % 2 ^ 64 < 2 ^ 32 := by
  have hsum := totalFuel_eq burnt
  have hcond := BitVec.toInt_eq_toNat_cond (totalFuel 0 burnt).toBitVec
  have hint : (totalFuel 0 burnt).toInt = (totalFuel 0 burnt).toBitVec.toInt := rfl
  have hnat : (totalFuel 0 burnt).toUInt64.toNat = (totalFuel 0 burnt).toBitVec.toNat := rfl
  rw [hnat] at hsum
  rw [CBlockHeader.fuelNarrowed_eq_iff, hint]
  split at hcond
  · omega
  · omega

theorem totalRunStep_within {burnt : List (UInt64 × UInt64)} (h : StepsWithin burnt) :
    totalRunStep 0 burnt ≤ maxBlockRunStep := by
  cases hn : burnt.length with
  | zero =>
    rw [List.length_eq_zero_iff.mp hn]
    show (0 : UInt64) ≤ maxBlockRunStep
    decide
  | succ n =>
    have hall := h n (by omega)
    rw [← hn, List.take_length] at hall
    exact hall

/-- Miner and validator agree on a block exactly when its fuel is a number of 32 bits; and the
validator's loop, where it gets through, has the miner's sums. -/
theorem miner_validator_iff
    (hnew : createNewBlock node sizes cache vecPriority unTime unBits vs = .ok (b, vs'))
    (hpos : createPosTx node wallet setCreateKey b vs'.view tip pPrevIndex = .ok b') :
    (Recomputed node b' vs ↔ FuelFits node b' vs) ∧
      (∃ burnt, executeTxs node b' b'.otherTxs vs = .ok (vs', burnt) ∧ StepsWithin burnt ∧
        b'.llFuel = totalFuel 0 burnt) ∧
      ∀ (cache' : CTransactionDBCache) (run : TxsRun),
        b'.otherTxs.foldlM (b'.connectTx node b'.height cache') ⟨vs, 0, 0, []⟩ = .ok run →
          run.views = vs' ∧ run.ullTotalRunStep ≤ maxBlockRunStep ∧ run.llTotalFuel = b'.llFuel := by
  obtain ⟨burnt, prtx, hexec, hwithin, hrate, hfuel, hprtx, hreward⟩ := created_executes hnew hpos
  have hfits := fuelNarrowed_totalFuel burnt
  rw [← hfuel] at hfits
  refine ⟨⟨?_, ?_⟩, ⟨burnt, hexec, hwithin, hfuel⟩, ?_⟩
  · rintro ⟨vs1, burnt1, hexec1, -, -, hnarrow, -⟩ vs2 burnt2 hexec2
    obtain ⟨rfl, rfl⟩ := Prod.mk.inj (Except.ok.inj (hexec.symm.trans hexec1))
    obtain ⟨rfl, rfl⟩ := Prod.mk.inj (Except.ok.inj (hexec.symm.trans hexec2))
    exact hfits.mp (hnarrow.symm.trans hfuel.symm)
  · intro hfit
    have hnarrow := hfits.mpr (hfit vs' burnt hexec)
    refine ⟨vs', burnt, hexec, hwithin, hrate, hfuel.symm.trans hnarrow.symm, prtx, hprtx, ?_⟩
    unfold validReward
    rw [hreward, hnarrow]
  · intro cache' run hrun
    obtain ⟨burnt1, hexec1, hsteps, hsum⟩ := connectTx_foldlM rfl hrun
    obtain ⟨hviews, rfl⟩ := Prod.mk.inj (Except.ok.inj (hexec.symm.trans hexec1))
    refine ⟨hviews.symm, ?_, hsum.trans hfuel.symm⟩
    rw [hsteps]
    exact totalRunStep_within hwithin

end

/-! ## On the small chain -/

open Sample

/-- The first holder, as genesis registers him. -/
def founder : CAccount :=
  { CAccount.null with
    cKeyID := keyId 5
    cRegID := ⟨0, 0⟩
    cPublicKey := pubKey 5
    ullValues := 100000000000 }

def genesisViews : Views where
  view := viewOf [founder, miner] [(⟨0, 0⟩, keyId 5), (⟨0, 1⟩, keyId 6)] 0
  scriptDB := scriptsOf []

/-- He registers a contract, for a fee of a little more than one coin. -/
def sampleRegistration (n : ℕ) : TxPriority where
  tx :=
    let tx : CRegisterAppTx := ⟨2, 1, .regID ⟨0, 0⟩, programBytes, UInt64.ofNat (100000000 + n), []⟩
    .registerApp { tx with vchSignature := sign (.registerApp tx) 5 }
  lowFee := false

/-- A block of such registrations, assembled and completed. -/
def registrationsBlock (n : ℕ) : Exec (CBlock × CBlock × Views) := do
  let (b, vs) ← createNewBlock sampleNode ⟨750000, 0⟩ .empty
    ((List.range n).map sampleRegistration) 60 0x20007fff genesisViews
  let b' ← createPosTx sampleNode sampleWallet [] b vs.view genesisViews.view (entryOf genesisBlock)
  return (b, b', vs)

theorem registrationsBlock_ok {n : ℕ} {llFuel : Int64}
    (h : (registrationsBlock n).toOption.map (fun r => r.2.1.llFuel) = some llFuel) :
    ∃ b b' vs, createNewBlock sampleNode ⟨750000, 0⟩ .empty ((List.range n).map sampleRegistration) 60
        0x20007fff genesisViews = .ok (b, vs) ∧
      createPosTx sampleNode sampleWallet [] b vs.view genesisViews.view (entryOf genesisBlock)
        = .ok b' ∧ b'.llFuel = llFuel := by
  cases hr : registrationsBlock n with
  | error e =>
    rw [hr] at h
    cases h
  | ok r =>
    rw [hr] at h
    unfold registrationsBlock at hr
    obtain ⟨⟨b, vs⟩, hnew, hr⟩ := Except.bind_eq_ok.mp hr
    obtain ⟨b', hpos, hr⟩ := Except.bind_eq_ok.mp hr
    obtain rfl := Except.ok.inj hr
    exact ⟨b, b', vs, hnew, hpos, Option.some.inj h⟩

/-- The validator agrees on a block with one registration. -/
theorem miner_validator_one : ∃ b b' vs,
    createNewBlock sampleNode ⟨750000, 0⟩ .empty ((List.range 1).map sampleRegistration) 60 0x20007fff
      genesisViews = .ok (b, vs) ∧
    createPosTx sampleNode sampleWallet [] b vs.view genesisViews.view (entryOf genesisBlock) = .ok b' ∧
    Recomputed sampleNode b' genesisViews := by
  obtain ⟨b, b', vs, hnew, hpos, hfuel⟩ := registrationsBlock_ok
    (show (registrationsBlock 1).toOption.map (fun r => r.2.1.llFuel) = some 100000000 by
      decide +kernel)
  obtain ⟨hiff, ⟨burnt, hexec, -, hsum⟩, -⟩ := miner_validator_iff hnew hpos
  refine ⟨b, b', vs, hnew, hpos, hiff.mpr fun vs' burnt' hexec' => ?_⟩
  obtain ⟨rfl, rfl⟩ := Prod.mk.inj (Except.ok.inj (hexec.symm.trans hexec'))
  rw [← fuelNarrowed_totalFuel, ← hsum, hfuel]
  decide

/-- With 43 registrations, a coin of fuel for each, the fuel is over 32 bits, and the validator
compares with what is left of it. -/
theorem registrations_not_recomputed : ∃ b b' vs,
    createNewBlock sampleNode ⟨750000, 0⟩ .empty ((List.range 43).map sampleRegistration) 60 0x20007fff
      genesisViews = .ok (b, vs) ∧
    createPosTx sampleNode sampleWallet [] b vs.view genesisViews.view (entryOf genesisBlock) = .ok b' ∧
    ¬ Recomputed sampleNode b' genesisViews := by
  obtain ⟨b, b', vs, hnew, hpos, hfuel⟩ := registrationsBlock_ok
    (show (registrationsBlock 43).toOption.map (fun r => r.2.1.llFuel) = some 4300000000 by
      decide +kernel)
  obtain ⟨burnt, prtx, hexec, -, -, hsum, -⟩ := created_executes hnew hpos
  refine ⟨b, b', vs, hnew, hpos, ?_⟩
  rintro ⟨vs', burnt', hexec', -, -, hnarrow, -⟩
  obtain ⟨rfl, rfl⟩ := Prod.mk.inj (Except.ok.inj (hexec.symm.trans hexec'))
  rw [← hsum, hfuel] at hnarrow
  exact absurd hnarrow (by decide)

end CBlock

end Dacrs
