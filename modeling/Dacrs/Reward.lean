import Dacrs.ConnectSpec
import Dacrs.ContractData
import Dacrs.SampleChain

/-!
# The reward of a block

`ConnectBlock` adds up the fuel of the transactions it executes, compares the sum with the header's
and lets the coinbase have the fees, less the header's fuel, and `POS_REWARD`.  The comparison is only
made when there are other transactions, `GetFuel` returns 32 bits of the header's 64, and the reward is
computed modulo 2^64.  `reward_law_iff` says for which headers, fees and fuels the law of the exact
integers holds all the same; `fuelsFit_of_counted` says that only a step count below zero can make the
fuels wrap.
-/

open Codec (Bytes)

namespace Dacrs

/-! ## Integers behind machine words -/

theorem UInt64_toNat_ofInt (z : ℤ) : ((UInt64.ofInt z).toNat : ℤ) = z % 2 ^ 64 := by
  have h := Int.emod_nonneg z (show (2 ^ 64 : ℤ) ≠ 0 by norm_num)
  have hlt := Int.emod_lt_of_pos z (show (0 : ℤ) < 2 ^ 64 by norm_num)
  have hnat : (UInt64.ofInt z).toNat = (z % 2 ^ 64).toNat % 2 ^ 64 := rfl
  omega

/-! ## One transaction -/

/-- With a step and a negative rate there is a negative fuel. -/
theorem fuelFloat_neg {steps : UInt64} {rate : Int32} (hsteps : 0 < steps.toNat)
    (hrate : rate.toInt < 0) : Binary.trunc (fuelFloat steps rate) ≤ -1 := by
  have hs : (0 : ℚ) < steps.toNat := by exact_mod_cast hsteps
  have h1 := Binary.round_pos (p := 24) (by norm_num) hs
  have h2 := Binary.round_pos (p := 24) (by norm_num)
    (show (0 : ℚ) < Binary.round 24 (steps.toNat : ℚ) / 100 by positivity)
  have hc : 1 ≤ ⌈Binary.round 24 (Binary.round 24 (steps.toNat : ℚ) / 100)⌉ :=
    Int.one_le_ceil_iff.mpr h2
  have hc' : (1 : ℚ) ≤ ⌈Binary.round 24 (Binary.round 24 (steps.toNat : ℚ) / 100)⌉ := by
    exact_mod_cast hc
  have hr : (1 : ℚ) ≤ -(rate.toInt : ℚ) := by
    have hle : rate.toInt ≤ -1 := by omega
    have hcast : (rate.toInt : ℚ) ≤ -1 := by exact_mod_cast hle
    linarith
  have h3 := Binary.one_le_round (p := 24) (by norm_num) hr
  have h4 := one_le_mul_of_one_le_of_one_le hc' h3
  have h5 := Binary.one_le_round (p := 24) (by norm_num) h4
  -- the product is the mirror of that of the positive rate
  have hneg : fuelFloat steps rate = -Binary.round 24
      (⌈Binary.round 24 (Binary.round 24 (steps.toNat : ℚ) / 100)⌉
        * Binary.round 24 (-(rate.toInt : ℚ))) := by
    rw [Binary.round_neg, mul_neg, Binary.round_neg, neg_neg]
    rfl
  rw [hneg, Binary.trunc_neg]
  have h6 : 1 ≤ Binary.trunc (Binary.round 24
      (⌈Binary.round 24 (Binary.round 24 (steps.toNat : ℚ) / 100)⌉
        * Binary.round 24 (-(rate.toInt : ℚ)))) := by
    unfold Binary.trunc
    rw [if_pos (by linarith), Int.le_floor]
    exact_mod_cast h5
  omega

/-- The fuel of a transaction stands for an integer of a modest size, with the sign of the rate. -/
theorem getFuel_ok {chain : PBlockIndex} {type : EmTxType} {steps : UInt64} {rate : Int32}
    {fuel : UInt64} (hreg : type = .regApp → 0 < steps.toNat) (hsteps : steps.toNat ≤ 12000000)
    (h : getFuel chain type steps rate = .ok fuel) :
    ∃ z : ℤ, fuel = UInt64.ofInt z ∧ |z| * 25 ≤ 2 ^ 33 * (steps.toNat + 25) ∧
      (0 ≤ rate.toInt → 0 ≤ z) ∧ (rate.toInt < 0 → z ≤ 0) := by
  obtain ⟨hsmall, hnonneg, hnonpos⟩ := fuelFloat_bounds steps rate
  have hz : fuelOf steps rate = UInt64.ofInt (Binary.trunc (fuelFloat steps rate)) := rfl
  unfold getFuel at h
  dsimp only at h
  by_cases htype : type = .regApp
  · rw [if_pos htype] at h
    cases chain with
    | nil => cases h
    | cons tip rest =>
      dsimp only at h
      obtain rfl := Except.ok.inj h
      have hcoin : ((UInt64.ofInt coin).toNat : ℤ) = 100000000 := by
        rw [UInt64_toNat_ofInt]
        rfl
      unfold regAppFuel
      by_cases hfork : tip.nHeight > regAppFuel2FeeForkHeight
      · rw [if_pos hfork]
        refine ⟨0, rfl, ?_, fun _ => le_refl _, fun _ => le_refl _⟩
        rw [abs_zero]
        omega
      · rw [if_neg hfork]
        by_cases hcheap : fuelOf steps rate < UInt64.ofInt coin
        · rw [if_pos hcheap]
          refine ⟨coin, rfl, ?_, fun _ => by unfold coin; omega, ?_⟩
          · unfold coin
            rw [abs_of_nonneg (by norm_num)]
            omega
          · intro hneg
            -- a negative fuel is a huge one, and dearer than a coin
            have hz1 := fuelFloat_neg (hreg htype) hneg
            have hlt := UInt64.lt_iff_toNat_lt.mp hcheap
            have htrunc : (fuelOf steps rate).toNat
                = (Binary.trunc (fuelFloat steps rate) % 2 ^ 64 : ℤ) := UInt64_toNat_ofInt _
            rw [abs_of_nonpos (by omega)] at hsmall
            omega
        · rw [if_neg hcheap]
          exact ⟨_, hz, hsmall, hnonneg, fun hneg => hnonpos hneg.le⟩
  · rw [if_neg htype] at h
    obtain rfl := Except.ok.inj h
    exact ⟨_, hz, hsmall, hnonneg, fun hneg => hnonpos hneg.le⟩

/-- A script fits into its transaction. -/
def CBaseTransaction.ScriptFits (tx : CBaseTransaction) : Prop :=
  ∀ r, tx = .registerApp r → r.vchScript.length ≤ maxBlockSize

theorem CBaseTransaction.scriptFits_of_check {node : Node} {tx : CBaseTransaction}
    {view : CAccountViewCache} {s : CScriptDBViewCache}
    (h : tx.checkTransaction node view s = .ok ()) : tx.ScriptFits := by
  rintro r rfl
  unfold checkTransaction at h
  rw [if_neg (show ¬ (CBaseTransaction.registerApp r).chTxType = .reward by simp [chTxType])] at h
  rw [Except.bind_eq_ok] at h
  obtain ⟨_, -, h⟩ := h
  rw [Except.bind_eq_ok] at h
  obtain ⟨_, hsize, -⟩ := h
  have hle := (Exec.require_eq_ok (Exec.fails_doS _ _ _ _)).mp hsize
  have hlen : r.vchScript.length ≤ (vchCodec.write r.vchScript).length :=
    Codec.length_le_vecBytes_write maxSize r.vchScript
  simp only [serializePtr, serialize, CRegisterAppTx.serialize, List.length_cons,
    List.length_append] at hle
  omega

theorem CRewardTransaction.executeTx_steps {node : Node} {tx : CRewardTransaction}
    {nIndex nHeight : ℤ} {vs : Views} {e : Executed}
    (h : tx.executeTx node nIndex nHeight vs = .ok e) : e.ullRunStep = 0 := by
  unfold executeTx at h
  split at h
  · simp only [Except.bind_eq_ok] at h
    obtain ⟨_, -, _, -, _, -, h⟩ := h
    cases h
    rfl
  · cases h

theorem CRegisterAccountTx.executeTx_steps {node : Node} {tx : CRegisterAccountTx}
    {nIndex nHeight : ℤ} {vs : Views} {e : Executed}
    (h : tx.executeTx node nIndex nHeight vs = .ok e) : e.ullRunStep = 0 := by
  unfold executeTx at h
  split at h
  · simp only [Except.bind_eq_ok] at h
    obtain ⟨_, -, _, -, _, -, _, -, h⟩ := h
    cases h
    rfl
  · cases h

/-- A plain transfer runs nothing. -/
theorem CTransaction.executeTx_steps {node : Node} {tx : CTransaction} {nIndex nHeight : ℤ}
    {nFuelRate : Int32} {vs : Views} {e : Executed} (hcommon : tx.chTxType = .common)
    (h : tx.executeTx node nIndex nHeight nFuelRate vs = .ok e) : e.ullRunStep = 0 := by
  obtain ⟨view, logs, vs', clogs, dblog, alogs, -, htype, -⟩ := executeTx_cases h
  unfold executeByType at htype
  rw [hcommon] at htype
  have hstep := congrArg (fun r => r.2.2.2) (Except.ok.inj htype)
  exact hstep.symm

theorem CTransaction.not_regApp (tx : CTransaction) {P : Prop}
    (h : (CBaseTransaction.transaction tx).chTxType = .regApp) : P := by
  have hct : tx.chTxType.toTxType = .regApp := h
  cases htx : tx.chTxType with
  | common =>
    rw [htx] at hct
    cases hct
  | contract =>
    rw [htx] at hct
    cases hct

/-- A transaction that calls no contract counts the bytes it registers, if any. -/
theorem CBaseTransaction.executeTx_steps {node : Node} {tx : CBaseTransaction} {nIndex nHeight : ℤ}
    {nFuelRate : Int32} {vs : Views} {e : Executed} (hfits : tx.ScriptFits)
    (hcontract : tx.chTxType ≠ .contract)
    (h : tx.executeTx node nIndex nHeight nFuelRate vs = .ok e) : e.ullRunStep.toNat < 2 ^ 63 := by
  cases tx with
  | reward tx =>
    rw [CRewardTransaction.executeTx_steps h]
    decide
  | registerAccount tx =>
    rw [CRegisterAccountTx.executeTx_steps h]
    decide
  | transaction tx =>
    have hcommon : tx.chTxType = .common := by
      cases htx : tx.chTxType with
      | common => rfl
      | contract =>
        refine absurd ?_ hcontract
        show tx.chTxType.toTxType = .contract
        rw [htx]
        rfl
    rw [CTransaction.executeTx_steps hcommon h]
    decide
  | registerApp tx =>
    obtain ⟨a, b, logs, s, -, -, -, -, -, -, hstep, -⟩ := CRegisterAppTx.executeTx_cases h
    have hlen := hfits tx rfl
    have hsize : maxBlockSize = 1000000 := rfl
    have hword : UInt64.size = 18446744073709551616 := rfl
    rw [hstep, UInt64.toNat_ofNat_of_lt' (by omega)]
    omega

/-- A registration counts at least one step. -/
theorem CBaseTransaction.executeTx_steps_pos {node : Node} {tx : CBaseTransaction}
    {nIndex nHeight : ℤ} {nFuelRate : Int32} {vs : Views} {e : Executed} (hfits : tx.ScriptFits)
    (h : tx.executeTx node nIndex nHeight nFuelRate vs = .ok e) (htype : tx.chTxType = .regApp) :
    0 < e.ullRunStep.toNat := by
  cases tx with
  | reward tx => cases htype
  | registerAccount tx => cases htype
  | transaction tx => exact CTransaction.not_regApp tx htype
  | registerApp tx =>
    obtain ⟨a, b, logs, s, -, -, hne, -, -, -, hstep, -⟩ := CRegisterAppTx.executeTx_cases h
    have hlen := hfits tx rfl
    have hpos := List.length_pos_iff.mpr hne
    have hsize : maxBlockSize = 1000000 := rfl
    have hword : UInt64.size = 18446744073709551616 := rfl
    rw [hstep, UInt64.toNat_ofNat_of_lt' (by omega)]
    exact hpos

/-! ## The transactions of a block -/

namespace CBlock

variable {node : Node} {b : CBlock} {nHeight : ℤ} {cache : CTransactionDBCache}

/-- The fuel of each of the transactions, executed in order. -/
def executedFuels (node : Node) (b : CBlock) (nHeight : ℤ) (vs : Views) :
    List (CBaseTransaction × ℕ) → Exec (List UInt64)
  | [] => .ok []
  | item :: items => do
    let e ← item.1.executeTx node item.2 nHeight b.nFuelRate vs
    let llFuel ← getFuel node.chainActive item.1.chTxType e.ullRunStep b.nFuelRate
    let rest ← executedFuels node b nHeight e.views items
    return llFuel :: rest

/-- No step count of an executed transaction wraps: each is that of an `int64_t` from 0 on. -/
def StepsCounted (node : Node) (b : CBlock) (nHeight : ℤ) (vs : Views) :
    List (CBaseTransaction × ℕ) → Prop
  | [] => True
  | item :: items => ∀ e, item.1.executeTx node item.2 nHeight b.nFuelRate vs = .ok e →
      e.ullRunStep.toNat < 2 ^ 63 ∧ StepsCounted node b nHeight e.views items

/-- Where no contract is called they are. -/
theorem stepsCounted_of_no_contract {items : List (CBaseTransaction × ℕ)} (vs : Views)
    (hitems : ∀ item ∈ items, item.1.ScriptFits ∧ item.1.chTxType ≠ .contract) :
    b.StepsCounted node nHeight vs items := by
  induction items generalizing vs with
  | nil => trivial
  | cons item items ih =>
    intro e he
    obtain ⟨hfits, hcontract⟩ := hitems item List.mem_cons_self
    exact ⟨CBaseTransaction.executeTx_steps hfits hcontract he,
      ih e.views fun item' hitem' => hitems item' (List.mem_cons_of_mem _ hitem')⟩

/-- The loop of `ConnectBlock` adds up the fuels modulo 2^64. -/
theorem connectTxs_fuelSum {items : List (CBaseTransaction × ℕ)} {st st' : TxsRun}
    (h : items.foldlM (b.connectTx node nHeight cache) st = .ok st') :
    ∃ fuels, b.executedFuels node nHeight st.views items = .ok fuels ∧
      (st'.llTotalFuel.toUInt64.toNat : ℤ)
        = (st.llTotalFuel.toUInt64.toNat + (fuels.map UInt64.toNat).sum : ℤ) % 2 ^ 64 := by
  induction items generalizing st with
  | nil =>
    obtain rfl := Except.ok.inj h
    have hlt := st.llTotalFuel.toUInt64.toNat_lt
    refine ⟨[], rfl, ?_⟩
    simp only [List.map_nil, List.sum_nil]
    omega
  | cons item items ih =>
    rw [List.foldlM_cons, Except.bind_eq_ok] at h
    obtain ⟨st₁, h1, h2⟩ := h
    obtain ⟨e, llFuel, he, hfuel, -, rfl⟩ := connectTx_ok h1
    obtain ⟨fuels, hrun, hsum⟩ := ih h2
    refine ⟨llFuel :: fuels, ?_, ?_⟩
    · unfold executedFuels
      rw [he, Except.ok_bind, hfuel, Except.ok_bind, hrun]
      rfl
    · have hnext : ((st.llTotalFuel + llFuel.toInt64).toUInt64.toNat : ℤ)
          = (st.llTotalFuel.toUInt64.toNat + llFuel.toNat) % 2 ^ 64 := by
        rw [Int64.toUInt64_add, UInt64.toUInt64_toInt64, UInt64.toNat_add]
        omega
      dsimp only at hsum
      rw [hsum, hnext, List.map_cons, List.sum_cons]
      push_cast
      omega

/-- The integers that the fuels of executed transactions stand for. -/
structure FuelsAre (rate : Int32) (steps : ℕ) (fuels : List UInt64) (zs : List ℤ) : Prop where
  values : fuels = zs.map UInt64.ofInt
  small : (zs.map fun z => |z|).sum * 25 ≤ 2 ^ 33 * ((steps : ℤ) + 25 * zs.length)
  nonneg : 0 ≤ rate.toInt → ∀ z ∈ zs, 0 ≤ z
  nonpos : rate.toInt < 0 → ∀ z ∈ zs, z ≤ 0

/-- Where no step count wraps, the loop of `ConnectBlock` adds up exact integers modulo 2^64. -/
theorem connectTxs_fuels {items : List (CBaseTransaction × ℕ)} {st st' : TxsRun}
    (hfits : ∀ item ∈ items, item.1.ScriptFits)
    (hcounted : b.StepsCounted node nHeight st.views items) (hsteps : st.ullTotalRunStep.toNat ≤ 12000000)
    (h : items.foldlM (b.connectTx node nHeight cache) st = .ok st') :
    ∃ steps fuels zs, b.executedFuels node nHeight st.views items = .ok fuels ∧
      FuelsAre b.nFuelRate steps fuels zs ∧ zs.length = items.length ∧
      st.ullTotalRunStep.toNat + steps ≤ 12000000 ∧
      (st'.llTotalFuel.toUInt64.toNat : ℤ) % 2 ^ 64
        = (st.llTotalFuel.toUInt64.toNat + zs.sum) % 2 ^ 64 := by
  induction items generalizing st with
  | nil =>
    obtain rfl := Except.ok.inj h
    refine ⟨0, [], [], rfl, ?_, rfl, hsteps, by simp⟩
    constructor
    · rfl
    · simp
    · intro _ z hz
      cases hz
    · intro _ z hz
      cases hz
  | cons item items ih =>
    rw [List.foldlM_cons, Except.bind_eq_ok] at h
    obtain ⟨st₁, h1, h2⟩ := h
    obtain ⟨e, llFuel, he, hfuel, hle, rfl⟩ := connectTx_ok h1
    obtain ⟨hlt, hcounted'⟩ := hcounted e he
    have hreg := CBaseTransaction.executeTx_steps_pos (hfits item List.mem_cons_self) he
    -- the sum of the steps does not wrap
    have hmax : maxBlockRunStep.toNat = 12000000 := rfl
    have hadd : (st.ullTotalRunStep + e.ullRunStep).toNat
        = st.ullTotalRunStep.toNat + e.ullRunStep.toNat := by
      rw [UInt64.toNat_add]
      omega
    have hle' := UInt64.le_iff_toNat_le.mp hle
    obtain ⟨z, rfl, hsmall, hnonneg, hnonpos⟩ := getFuel_ok hreg (by omega) hfuel
    obtain ⟨steps, fuels, zs, hrun, hare, hlen, hsum, hmod⟩ :=
      ih (fun item hitem => hfits item (List.mem_cons_of_mem _ hitem)) hcounted' (by
        show (st.ullTotalRunStep + e.ullRunStep).toNat ≤ 12000000
        omega) h2
    refine ⟨e.ullRunStep.toNat + steps, UInt64.ofInt z :: fuels, z :: zs, ?_, ?_, ?_, ?_, ?_⟩
    · unfold executedFuels
      rw [he, Except.ok_bind, hfuel, Except.ok_bind, hrun]
      rfl
    · constructor
      · rw [hare.values, List.map_cons]
      · have hrest := hare.small
        rw [List.map_cons, List.sum_cons, List.length_cons]
        push_cast
        omega
      · intro hrate z' hz'
        rcases List.mem_cons.mp hz' with rfl | hz'
        · exact hnonneg hrate
        · exact hare.nonneg hrate z' hz'
      · intro hrate z' hz'
        rcases List.mem_cons.mp hz' with rfl | hz'
        · exact hnonpos hrate
        · exact hare.nonpos hrate z' hz'
    · rw [List.length_cons, List.length_cons, hlen]
    · dsimp only at hsum
      omega
    · dsimp only at hmod
      have hword := UInt64_toNat_ofInt z
      have hnext : ((st.llTotalFuel + (UInt64.ofInt z).toInt64).toUInt64.toNat : ℤ)
          = (st.llTotalFuel.toUInt64.toNat + (UInt64.ofInt z).toNat) % 2 ^ 64 := by
        rw [Int64.toUInt64_add, UInt64.toUInt64_toInt64, UInt64.toNat_add]
        omega
      rw [hmod, hnext, List.sum_cons, hword]
      omega

/-- A sum is no larger than the sum of the sizes. -/
theorem abs_sum_le (zs : List ℤ) : |zs.sum| ≤ (zs.map fun z => |z|).sum := by
  induction zs with
  | nil => simp
  | cons z zs ih =>
    rw [List.map_cons, List.sum_cons, List.sum_cons]
    exact (abs_add_le z zs.sum).trans (by omega)

/-- Words that stand for integers at least 0 add up as these do. -/
theorem sum_toNat_of_nonneg {zs : List ℤ} (h : ∀ z ∈ zs, 0 ≤ z)
    (hsmall : (zs.map fun z => |z|).sum < 2 ^ 63) :
    (((zs.map UInt64.ofInt).map UInt64.toNat).sum : ℤ) = zs.sum := by
  induction zs with
  | nil => rfl
  | cons z zs ih =>
    have hz := h z List.mem_cons_self
    have hrest := fun x hx => h x (List.mem_cons_of_mem _ hx)
    rw [List.map_cons, List.sum_cons, abs_of_nonneg hz] at hsmall
    have habs := abs_sum_le zs
    have hnonneg : 0 ≤ (zs.map fun z => |z|).sum := (abs_nonneg _).trans habs
    have hword := UInt64_toNat_ofInt z
    rw [List.map_cons, List.map_cons, List.sum_cons, List.sum_cons, Nat.cast_add,
      ih hrest (by omega), hword]
    omega

theorem sum_nonpos {zs : List ℤ} (h : ∀ z ∈ zs, z ≤ 0) : zs.sum ≤ 0 := by
  induction zs with
  | nil => rfl
  | cons z zs ih =>
    have hz := h z List.mem_cons_self
    have hrest := ih fun x hx => h x (List.mem_cons_of_mem _ hx)
    rw [List.sum_cons]
    omega

/-- Integers at most 0 that do not add up to less are all 0. -/
theorem eq_zero_of_nonpos {zs : List ℤ} (h : ∀ z ∈ zs, z ≤ 0) (hsum : 0 ≤ zs.sum) :
    ∀ z ∈ zs, z = 0 := by
  induction zs with
  | nil =>
    intro z hz
    cases hz
  | cons x zs ih =>
    have hx := h x List.mem_cons_self
    have hrest := fun y hy => h y (List.mem_cons_of_mem _ hy)
    have hle := sum_nonpos hrest
    rw [List.sum_cons] at hsum
    intro z hz
    rcases List.mem_cons.mp hz with rfl | hz
    · omega
    · exact ih hrest (by omega) z hz

/-- If the integers add up to a number of 32 bits, so do the words. -/
theorem FuelsAre.sum_toNat {rate : Int32} {steps : ℕ} {fuels : List UInt64} {zs : List ℤ}
    (h : FuelsAre rate steps fuels zs) (hsteps : steps ≤ 12000000) (hlen : zs.length ≤ 1000000)
    {n : ℤ} (hn : 0 ≤ n) (hn' : n < 2 ^ 32) (hmod : zs.sum % 2 ^ 64 = n) :
    ((fuels.map UInt64.toNat).sum : ℤ) = n := by
  have hsmall := h.small
  have habs := abs_sum_le zs
  have hbounds := abs_le.mp habs
  have hsum : zs.sum = n := by omega
  have hall : ∀ z ∈ zs, 0 ≤ z := by
    by_cases hrate : 0 ≤ rate.toInt
    · exact h.nonneg hrate
    · intro z hz
      have hzero := eq_zero_of_nonpos (h.nonpos (by omega)) (by omega) z hz
      omega
  rw [h.values, sum_toNat_of_nonneg hall (by omega), hsum]

/-! ## The law -/

/-- The exact sum of the fees after the coinbase. -/
def exactFee (b : CBlock) : ℕ := ((b.vptx.drop 1).map fun tx => tx.getFee.toNat).sum

/-- The reward law: the fuels add up to the header's, to no more than the fees, and the coinbase gets
the fees less the fuel and `POS_REWARD`. -/
def RewardLaw (node : Node) (b : CBlock) (nHeight : ℤ) (vs : Views) : Prop :=
  ∃ fuels rewardTx, b.executedFuels node nHeight vs b.otherTxs = .ok fuels ∧
    b.rewardTx = .ok rewardTx ∧
    ((fuels.map UInt64.toNat).sum : ℤ) = b.llFuel.toInt ∧
    (fuels.map UInt64.toNat).sum ≤ b.exactFee ∧
    (rewardTx.ullRewardValue.toNat : ℤ)
      = b.exactFee - (fuels.map UInt64.toNat).sum + 10 * coin

/-- The header's fuel is a number of 32 bits that the fees cover, and the reward one of 64 bits. -/
def FuelInRange (b : CBlock) : Prop :=
  (0 ≤ b.llFuel.toInt ∧ b.llFuel.toInt < 2 ^ 32) ∧ b.llFuel.toInt ≤ b.exactFee ∧
    b.exactFee - b.llFuel.toInt + 10 * coin < 2 ^ 64

/-- A running `int64_t` sum is the sum modulo 2^64. -/
theorem foldl_add_toInt64 {α : Type} (f : α → UInt64) (l : List α) (n : Int64) :
    ((l.foldl (fun s a => s + (f a).toInt64) n).toUInt64.toNat : ℤ)
      = (n.toUInt64.toNat + (l.map fun a => (f a).toNat).sum : ℤ) % 2 ^ 64 := by
  induction l generalizing n with
  | nil =>
    have hlt := n.toUInt64.toNat_lt
    simp only [List.foldl_nil, List.map_nil, List.sum_nil]
    omega
  | cons a l ih =>
    have hadd : ((n + (f a).toInt64).toUInt64.toNat : ℤ)
        = (n.toUInt64.toNat + (f a).toNat) % 2 ^ 64 := by
      rw [Int64.toUInt64_add, UInt64.toUInt64_toInt64, UInt64.toNat_add]
      omega
    rw [List.foldl_cons, ih, hadd, List.map_cons, List.sum_cons]
    push_cast
    omega

/-- `GetFee` is the sum of the fees modulo 2^64. -/
theorem getFee_eq (b : CBlock) : (b.getFee.toUInt64.toNat : ℤ) = (b.exactFee : ℤ) % 2 ^ 64 := by
  have hall := foldl_add_toInt64 CBaseTransaction.getFee (b.vptx.drop 1) 0
  have hzero : (0 : Int64).toUInt64.toNat = 0 := rfl
  unfold getFee exactFee
  rw [hall, hzero]
  omega

/-- What `GetFuel` returns of the header's fuel. -/
theorem fuelNarrowed_eq (n : Int64) :
    ((CBlockHeader.fuelNarrowed n).toUInt64.toNat : ℤ) = n.toInt % 2 ^ 32 := by
  have hnarrow : (CBlockHeader.fuelNarrowed n).toUInt64.toNat = n.toUInt64.toNat % 2 ^ 32 := by
    unfold CBlockHeader.fuelNarrowed
    rw [UInt64.toUInt64_toInt64]
    simp
  have hcond := BitVec.toInt_eq_toNat_cond n.toBitVec
  have hint : n.toInt = n.toBitVec.toInt := rfl
  have hnat : n.toUInt64.toNat = n.toBitVec.toNat := rfl
  rw [hnarrow, hint, hnat]
  split at hcond
  · omega
  · omega

/-- The reward that is asked of the coinbase. -/
theorem validReward_eq (b : CBlock) : (b.validReward.toNat : ℤ)
    = (b.exactFee - b.llFuel.toInt % 2 ^ 32 + 10 * coin : ℤ) % 2 ^ 64 := by
  have hfee := b.getFee_eq
  have hfuel := fuelNarrowed_eq b.llFuel
  have hpos : posReward.toUInt64.toNat = 1000000000 := rfl
  have hcoin : coin = 100000000 := rfl
  unfold validReward
  rw [Int64.toUInt64_add, Int64.toUInt64_sub, UInt64.toNat_add, UInt64.toNat_sub, hpos, hcoin]
  have hlt := b.getFee.toUInt64.toNat_lt
  have hlt' := (CBlockHeader.fuelNarrowed b.llFuel).toUInt64.toNat_lt
  omega

/-- The fuels of its transactions add up to a number of 64 bits. -/
def FuelsFit (node : Node) (b : CBlock) (nHeight : ℤ) (vs : Views) : Prop :=
  ∀ fuels, b.executedFuels node nHeight vs b.otherTxs = .ok fuels →
    (fuels.map UInt64.toNat).sum < 2 ^ 64

/-- What an accepted block has: its fuels add up to the header's 32 bits modulo 2^64, and its coinbase
has the reward asked of it. -/
theorem connectBlock_reward {vs : Views} {pIndex : CBlockIndex} {pPrev : PBlockIndex}
    {files : UndoFiles} {out : Connected}
    (hgen : b.getHash node.cr.Hash ≠ node.cfg.cHashGenesisBlock)
    (h : b.connectBlock node vs (pIndex :: pPrev) cache files false = .ok out) :
    ∃ fuels rewardTx, b.executedFuels node pIndex.nHeight vs b.otherTxs = .ok fuels ∧
      b.rewardTx = .ok rewardTx ∧ rewardTx.ullRewardValue = b.validReward ∧
      (b.vptx.length ≤ 1 ∧ fuels = [] ∧ b.exactFee = 0 ∨
        ((fuels.map UInt64.toNat).sum : ℤ) % 2 ^ 64 = b.llFuel.toInt % 2 ^ 32) := by
  obtain ⟨_, _, vs', undo, hp, -, -, hviews, -⟩ := connectBlock_ok h hgen
  obtain ⟨rfl, rfl⟩ := List.cons.inj hp
  obtain ⟨st, e, matured, hst, he, -, -⟩ := connectViews_ok hviews
  obtain ⟨hrun, hfuel⟩ := connectTxs_ok hst
  obtain ⟨tx, htx, -, -, hreward, -⟩ := connectReward_ok he
  obtain ⟨fuels, hfuels, hsum⟩ := connectTxs_fuelSum hrun
  refine ⟨fuels, tx, hfuels, htx, hreward, ?_⟩
  rcases hfuel with hone | hsame
  · left
    have hdrop : b.vptx.drop 1 = [] := by
      rw [List.drop_eq_nil_iff]
      exact hone
    refine ⟨hone, ?_, ?_⟩
    · unfold otherTxs at hfuels
      rw [hdrop] at hfuels
      exact (Except.ok.inj hfuels).symm
    · unfold exactFee
      rw [hdrop]
      rfl
  · right
    have hzero : (0 : Int64).toUInt64.toNat = 0 := rfl
    rw [hsame, fuelNarrowed_eq, hzero] at hsum
    omega

/-- Unless a step count wraps, the fuels of an accepted block fit. -/
theorem fuelsFit_of_counted {vs : Views} {pIndex : CBlockIndex} {pPrev : PBlockIndex}
    {files : UndoFiles} {out : Connected}
    (hgen : b.getHash node.cr.Hash ≠ node.cfg.cHashGenesisBlock)
    (h : b.connectBlock node vs (pIndex :: pPrev) cache files false = .ok out)
    (hcounted : b.StepsCounted node pIndex.nHeight vs b.otherTxs) :
    b.FuelsFit node pIndex.nHeight vs := by
  obtain ⟨_, _, vs', undo, hp, hcheck, -, hviews, -⟩ := connectBlock_ok h hgen
  obtain ⟨rfl, rfl⟩ := List.cons.inj hp
  obtain ⟨st, e, matured, hst, -, -, -⟩ := connectViews_ok hviews
  obtain ⟨hrun, hfuel⟩ := connectTxs_ok hst
  have hfits : ∀ item ∈ b.otherTxs, item.1.ScriptFits := by
    intro item hitem
    exact CBaseTransaction.scriptFits_of_check
      (hcheck.checkTransaction (mem_otherTxs hitem).1)
  obtain ⟨steps, fuels, zs, hfuels, hare, hlen, hsteps, hmod⟩ :=
    connectTxs_fuels hfits hcounted (by exact Nat.zero_le _) hrun
  intro fuels' hfuels'
  obtain rfl := Except.ok.inj (hfuels.symm.trans hfuels')
  rcases hfuel with hone | hsame
  · have hdrop : b.vptx.drop 1 = [] := by
      rw [List.drop_eq_nil_iff]
      exact hone
    unfold otherTxs at hfuels
    rw [hdrop] at hfuels
    obtain rfl := Except.ok.inj hfuels
    decide
  · have hcount := hcheck.count
    have hsize : maxBlockSize = 1000000 := rfl
    have hitems : b.otherTxs.length ≤ b.vptx.length := by
      unfold otherTxs
      rw [List.length_zipIdx, List.length_drop]
      omega
    have hzero : (0 : Int64).toUInt64.toNat = 0 := rfl
    rw [hsame, fuelNarrowed_eq, hzero] at hmod
    have hword := hare.sum_toNat (n := b.llFuel.toInt % 2 ^ 32) (by omega) (by omega) (by omega)
      (by omega) (by omega)
    omega

/-- An accepted block obeys the reward law exactly when its header's fuel is in range and its fuels
add up without a wrap. -/
theorem reward_law_iff (node : Node) (b : CBlock) (vs : Views) (pIndex : CBlockIndex)
    (pPrev : PBlockIndex) (cache : CTransactionDBCache) (files : UndoFiles) (out : Connected)
    (hgen : b.getHash node.cr.Hash ≠ node.cfg.cHashGenesisBlock)
    (h : b.connectBlock node vs (pIndex :: pPrev) cache files false = .ok out) :
    b.RewardLaw node pIndex.nHeight vs ↔ b.FuelInRange ∧ b.FuelsFit node pIndex.nHeight vs := by
  obtain ⟨fuels, tx, hfuels, htx, hreward, hsum⟩ := connectBlock_reward hgen h
  have hvalue := b.validReward_eq
  rw [← hreward] at hvalue
  have hcoin : coin = 100000000 := rfl
  constructor
  · rintro ⟨fuels', tx', hfuels', htx', hlaw, hle, hexact⟩
    obtain rfl := Except.ok.inj (hfuels.symm.trans hfuels')
    obtain rfl := Except.ok.inj (htx.symm.trans htx')
    have hlt := tx.ullRewardValue.toNat_lt
    have hheader := b.llFuel.toInt_lt
    constructor
    · unfold FuelInRange
      rcases hsum with ⟨-, rfl, hfee⟩ | hsum
      · simp only [List.map_nil, List.sum_nil] at hlaw
        omega
      · omega
    · intro fuels' hfuels'
      obtain rfl := Except.ok.inj (hfuels.symm.trans hfuels')
      omega
  · rintro ⟨⟨⟨hnonneg, hword⟩, hle, hrange⟩, hfit⟩
    have hsmall := hfit fuels hfuels
    have hfuel : ((fuels.map UInt64.toNat).sum : ℤ) = b.llFuel.toInt := by
      rcases hsum with ⟨-, rfl, hfee⟩ | hsum
      · simp only [List.map_nil, List.sum_nil]
        omega
      · omega
    exact ⟨fuels, tx, hfuels, htx, hfuel, by omega, by omega⟩

/-! ## Two blocks over genesis -/

/-- A block without other transactions whose header claims all the fuel 32 bits can hold. -/
def mintingBlock : CBlock := Sample.firstBlock 4294967295 18446744070414584321 []

open Sample in
/-- Its coinbase gets nearly 2^64, for no fees at all. -/
theorem minting_block : ∃ (g : Connected) (out : Connected) (tx : CRewardTransaction),
    mintingBlock.getHash crypto.Hash ≠ chainCfg.cHashGenesisBlock ∧
    mintingBlock.connectBlock (chainNode [withEntry mintingBlock, withEntry genesisBlock]) g.views
      [entryOf mintingBlock, entryOf genesisBlock] g.cTxCache g.files false = .ok out ∧
    mintingBlock.exactFee = 0 ∧ mintingBlock.rewardTx = .ok tx ∧
    tx.ullRewardValue.toNat = 18446744070414584321 ∧
    ¬ mintingBlock.RewardLaw (chainNode [withEntry mintingBlock, withEntry genesisBlock])
      (entryOf mintingBlock).nHeight g.views := by
  obtain ⟨out, hout⟩ := Except.exists_of_toOption
    (show (firstRun mintingBlock).toOption.isSome = true by decide +kernel)
  unfold firstRun at hout
  rw [Except.bind_eq_ok] at hout
  obtain ⟨g, -, hconnect⟩ := hout
  refine ⟨g, out, ⟨2, .regID ⟨0, 1⟩, 18446744070414584321, 1⟩, by decide +kernel, hconnect, rfl, rfl,
    rfl, ?_⟩
  rintro ⟨fuels, tx, hfuels, -, hlaw, -⟩
  obtain rfl : fuels = [] := (Except.ok.inj hfuels).symm
  have hheader : mintingBlock.llFuel.toInt = 4294967295 := by decide +kernel
  rw [hheader] at hlaw
  cases hlaw

open Sample in
/-- The law holds of a block with a transfer and a registration. -/
theorem reward_law_register : ∃ g : Connected,
    registerBlock.RewardLaw (chainNode [withEntry registerBlock, withEntry genesisBlock])
      (entryOf registerBlock).nHeight g.views := by
  obtain ⟨out, hout⟩ := Except.exists_of_toOption
    (show (firstRun registerBlock).toOption.isSome = true by decide +kernel)
  unfold firstRun at hout
  rw [Except.bind_eq_ok] at hout
  obtain ⟨g, -, hconnect⟩ := hout
  have hrange : registerBlock.FuelInRange := by
    unfold FuelInRange
    decide +kernel
  have hcounted : registerBlock.StepsCounted
      (chainNode [withEntry registerBlock, withEntry genesisBlock]) (entryOf registerBlock).nHeight
      g.views registerBlock.otherTxs := by
    refine stepsCounted_of_no_contract g.views fun item hitem => ?_
    have hitems : registerBlock.otherTxs = [(fundingTx, 1), (registerTx, 2)] := rfl
    rw [hitems] at hitem
    rcases List.mem_pair.mp hitem with rfl | rfl
    · exact ⟨by rintro r ⟨⟩, by decide⟩
    · exact ⟨by rintro r ⟨⟩, by decide⟩
  have hfit := fuelsFit_of_counted (by decide +kernel) hconnect hcounted
  exact ⟨g, (reward_law_iff _ _ _ _ _ _ _ _ (by decide +kernel) hconnect).mpr ⟨hrange, hfit⟩⟩

end CBlock

end Dacrs
