import Dacrs.AppAccount
import Dacrs.Lib.Binary

/-!
# Fuel

The fuel rate a block must carry (`GetElementForBurn`) and the fuel a transaction burns
for the steps it ran.  Both go through binary floating point in the source.
`fuelFloat_bounds` is what the 24-bit arithmetic guarantees, whatever the rate.
-/

namespace Dacrs

/-- MAX_BLOCK_RUN_STEP, MIN_FUEL_RATES, `g_sBurnRateForkHeight`, `g_sRegAppFuel2FeeForkHeight`. -/
def maxBlockRunStep : UInt64 := 12000000
def minFuelRates : Int32 := 1
def burnRateForkHeight : ℤ := 45000
def regAppFuel2FeeForkHeight : ℤ := 717000

/-- The value of an `int` where a `uint64_t` is wanted. -/
def int32ToUInt64 (n : Int32) : UInt64 := n.toInt64.toUInt64

/-- Conversion of the eight bytes of a `double` to `int64_t`. -/
def doubleToInt64 (bits : UInt64) : ℤ :=
  let e := bits.toNat / 2 ^ 52 % 2 ^ 11
  let m := bits.toNat % 2 ^ 52 + 2 ^ 52
  let abs : ℕ := if 1075 ≤ e then m * 2 ^ (e - 1075) else m / 2 ^ (1075 - e)
  if e < 1023 then 0
  else if 1086 ≤ e then -2 ^ 63
  else if bits.toNat / 2 ^ 63 = 1 then -(abs : ℤ) else abs

/-! ## The rate of the next block -/

def totalFeePerKb (l : List CBlockIndex) : ℤ := (l.map fun p => doubleToInt64 p.dFeePerKb).sum

/-- `m_unChainTx` of the entry a pointer has come to. -/
def chainTxAt (l : PBlockIndex) : UInt32 :=
  match l with
  | [] => 0
  | p :: _ => p.unChainTx

/-- The rule up to `g_sBurnRateForkHeight`: the change of the fee level of two spans of blocks. -/
def feeLevelRate (cfg : SysCfg) (p : CBlockIndex) (chain : PBlockIndex) : Int32 :=
  let nBlock := cfg.nBlockSizeForBurn
  let first := chain.drop nBlock.toNat
  let second := first.drop nBlock.toNat
  let enough := UInt32.ofInt (10 * nBlock)
  let average1 := (totalFeePerKb (chain.take nBlock.toNat)).tdiv nBlock
  let average2 := (totalFeePerKb (first.take nBlock.toNat)).tdiv nBlock
  if (p.nHeight - 1).tmod nBlock ≠ 0 then p.nFuelRate
  else if p.unChainTx - chainTxAt first < enough then p.nFuelRate
  else if (chainTxAt first).toUInt64 - (chainTxAt second).toUInt64 < enough.toUInt64 then p.nFuelRate
  else if average1 = 0 ∨ average2 = 0 then p.nFuelRate
  else max minFuelRates (Int32.ofInt (p.nFuelRate.toInt * average2.tdiv average1))

/-- The rule above it: the load of the last blocks. -/
def loadRate (cfg : SysCfg) (p : CBlockIndex) (chain : PBlockIndex) : Int32 :=
  let nBlock := cfg.nBlockSizeForBurn
  let rate := p.nFuelRate.toInt
  let total : ℤ := ((chain.take nBlock.toNat).map fun q =>
    q.llFuel.toInt.tdiv q.nFuelRate.toInt * 100).sum
  let average := total.tdiv nBlock
  let double (q : ℚ) : ℚ := Binary.round 53 q
  let next : ℤ :=
    if p.nHeight ≤ regAppFuel2FeeForkHeight then
      if average < 9000000 then Binary.trunc (double (rate * double (9 / 10)))
      else if average > 10200000 then Binary.trunc (double (rate * double (11 / 10)))
      else rate
    else
      if average < 9000000 then (rate * 9).tdiv 10
      else if average > 10200000 then
        if (rate * 11).tdiv 10 ≤ rate then rate + 1 else (rate * 11).tdiv 10
      else rate
  max minFuelRates (Int32.ofInt next)

/-- `GetElementForBurn`. -/
def getElementForBurn (cfg : SysCfg) (pBlockIndex : PBlockIndex) : Int32 :=
  match pBlockIndex with
  | [] => initFuelRates
  | p :: _ =>
    if cfg.nBlockSizeForBurn * 2 ≥ p.nHeight - 1 then initFuelRates
    else if p.nHeight ≤ burnRateForkHeight then feeLevelRate cfg p pBlockIndex
    else loadRate cfg p pBlockIndex

/-! ## The fuel of a transaction -/

/-- `ceil(step / 100.0f) * rate` in `float`. -/
def fuelFloat (ullRunStep : UInt64) (nFuelRate : Int32) : ℚ :=
  let float (q : ℚ) : ℚ := Binary.round 24 q
  float (⌈float (float ullRunStep.toNat / 100)⌉ * float nFuelRate.toInt)

/-- Its conversion to `uint64_t`; a negative value wraps as on the machines the node runs on. -/
def fuelOf (ullRunStep : UInt64) (nFuelRate : Int32) : UInt64 :=
  UInt64.ofInt (Binary.trunc (fuelFloat ullRunStep nFuelRate))

/-- The fuel of a registration is at least one coin, and nothing from the fork on; the fork is
looked up in the active chain. -/
def regAppFuel (tip : CBlockIndex) (llFuel : UInt64) : UInt64 :=
  if tip.nHeight > regAppFuel2FeeForkHeight then 0
  else if llFuel < UInt64.ofInt coin then UInt64.ofInt coin else llFuel

/-- `CBaseTransaction::GetFuel`; it reads `g_cChainActive.Tip()` for a registration only. -/
def getFuel (chainActive : PBlockIndex) (type : EmTxType) (ullRunStep : UInt64)
    (nFuelRate : Int32) : Exec UInt64 :=
  let llFuel := fuelOf ullRunStep nFuelRate
  if type = .regApp then
    match chainActive with
    | [] => Exec.throw "g_cChainActive.Tip() is NULL"
    | tip :: _ => .ok (regAppFuel tip llFuel)
  else .ok llFuel

/-! ## Bounds of the float -/

@[simp] theorem fuelOf_zero (rate : Int32) : fuelOf 0 rate = 0 := by
  simp [fuelOf, fuelFloat, Binary.trunc]
  rfl

/-- The scale of everything below: the ceiling of a hundredth of the steps. -/
theorem hundredth_bounds (n : ℕ) :
    (0 : ℤ) ≤ ⌈Binary.round 24 (Binary.round 24 (n : ℚ) / 100)⌉ ∧
      ((⌈Binary.round 24 (Binary.round 24 (n : ℚ) / 100)⌉ : ℤ) : ℚ) ≤ n / 25 + 1 := by
  have hn : (0 : ℚ) ≤ n := Nat.cast_nonneg n
  have h1 := Binary.round_nonneg 24 hn
  have h2 := Binary.round_le_two_mul (p := 24) (by norm_num) hn
  have h3 : 0 ≤ Binary.round 24 (n : ℚ) / 100 := by positivity
  have h4 := Binary.round_nonneg 24 h3
  have h5 := Binary.round_le_two_mul (p := 24) (by norm_num) h3
  refine ⟨Int.ceil_nonneg h4, ?_⟩
  have h6 := (Int.ceil_lt_add_one (Binary.round 24 (Binary.round 24 (n : ℚ) / 100))).le
  linarith

/-- The float product for a nonnegative rate. -/
theorem fuelTrunc_bounds (steps : UInt64) (r : ℚ) (hr : 0 ≤ r) :
    0 ≤ Binary.trunc (Binary.round 24
        (⌈Binary.round 24 (Binary.round 24 (steps.toNat : ℚ) / 100)⌉ * Binary.round 24 r)) ∧
      (Binary.trunc (Binary.round 24
        (⌈Binary.round 24 (Binary.round 24 (steps.toNat : ℚ) / 100)⌉ * Binary.round 24 r)) : ℚ)
        ≤ 4 * r * (steps.toNat / 25 + 1) := by
  obtain ⟨hc0, hc1⟩ := hundredth_bounds steps.toNat
  set c := ⌈Binary.round 24 (Binary.round 24 (steps.toNat : ℚ) / 100)⌉ with hc
  have hc0' : (0 : ℚ) ≤ c := by exact_mod_cast hc0
  have h1 := Binary.round_nonneg 24 hr
  have h2 := Binary.round_le_two_mul (p := 24) (by norm_num) hr
  have h3 : 0 ≤ (c : ℚ) * Binary.round 24 r := mul_nonneg hc0' h1
  have h4 := Binary.round_nonneg 24 h3
  have h5 := Binary.round_le_two_mul (p := 24) (by norm_num) h3
  refine ⟨Binary.trunc_nonneg h4, (Binary.trunc_le h4).trans (h5.trans ?_)⟩
  calc 2 * ((c : ℚ) * Binary.round 24 r) ≤ 2 * ((steps.toNat / 25 + 1) * (2 * r)) := by
        have := mul_le_mul hc1 h2 h1 (by positivity : (0 : ℚ) ≤ steps.toNat / 25 + 1)
        linarith
    _ = 4 * r * (steps.toNat / 25 + 1) := by ring

/-- The signed value of a fuel: it has the sign of the rate and a modest size. -/
theorem fuelFloat_bounds (steps : UInt64) (rate : Int32) :
    |Binary.trunc (fuelFloat steps rate)| * 25 ≤ 2 ^ 33 * (steps.toNat + 25) ∧
      (0 ≤ rate.toInt → 0 ≤ Binary.trunc (fuelFloat steps rate)) ∧
      (rate.toInt ≤ 0 → Binary.trunc (fuelFloat steps rate) ≤ 0) := by
  have hlow := rate.le_toInt
  have hhigh := rate.toInt_lt
  rcases le_total 0 rate.toInt with hr | hr
  · have hr' : (0 : ℚ) ≤ rate.toInt := by exact_mod_cast hr
    obtain ⟨h0, h1⟩ := fuelTrunc_bounds steps (rate.toInt : ℚ) hr'
    have hz : Binary.trunc (fuelFloat steps rate) = Binary.trunc (Binary.round 24
        (⌈Binary.round 24 (Binary.round 24 (steps.toNat : ℚ) / 100)⌉
          * Binary.round 24 (rate.toInt : ℚ))) := rfl
    rw [hz]
    refine ⟨?_, fun _ => h0, fun hle => ?_⟩
    · rw [abs_of_nonneg h0]
      have hb : (rate.toInt : ℚ) ≤ 2 ^ 31 := by exact_mod_cast hhigh.le
      have : (Binary.trunc (Binary.round 24
        (⌈Binary.round 24 (Binary.round 24 (steps.toNat : ℚ) / 100)⌉
          * Binary.round 24 (rate.toInt : ℚ))) : ℚ) * 25 ≤ 2 ^ 33 * (steps.toNat + 25) := by
        have hs : (0 : ℚ) ≤ steps.toNat / 25 + 1 := by positivity
        have := mul_le_mul_of_nonneg_right hb hs
        linarith
      exact_mod_cast this
    · have hzero : rate.toInt = 0 := le_antisymm hle hr
      rw [hzero] at h0 h1 ⊢
      simp at h1 ⊢
      exact h1
  · -- a negative rate: everything is mirrored
    have hr' : (0 : ℚ) ≤ -(rate.toInt : ℚ) := by
      have : (rate.toInt : ℚ) ≤ 0 := by exact_mod_cast hr
      linarith
    obtain ⟨h0, h1⟩ := fuelTrunc_bounds steps (-(rate.toInt : ℚ)) hr'
    have hz : Binary.trunc (fuelFloat steps rate) = -Binary.trunc (Binary.round 24
        (⌈Binary.round 24 (Binary.round 24 (steps.toNat : ℚ) / 100)⌉
          * Binary.round 24 (-(rate.toInt : ℚ)))) := by
      rw [Binary.round_neg, mul_neg, Binary.round_neg, Binary.trunc_neg, neg_neg]
      rfl
    rw [hz, abs_neg, abs_of_nonneg h0]
    refine ⟨?_, fun hge => ?_, fun _ => by omega⟩
    · have hb : -(rate.toInt : ℚ) ≤ 2 ^ 31 := by
        have : (-2 ^ 31 : ℤ) ≤ rate.toInt := hlow
        have : ((-2 ^ 31 : ℤ) : ℚ) ≤ rate.toInt := by exact_mod_cast this
        push_cast at this
        linarith
      have : (Binary.trunc (Binary.round 24
        (⌈Binary.round 24 (Binary.round 24 (steps.toNat : ℚ) / 100)⌉
          * Binary.round 24 (-(rate.toInt : ℚ)))) : ℚ) * 25 ≤ 2 ^ 33 * (steps.toNat + 25) := by
        have hs : (0 : ℚ) ≤ steps.toNat / 25 + 1 := by positivity
        have := mul_le_mul_of_nonneg_right hb hs
        linarith
      exact_mod_cast this
    · have hzero : rate.toInt = 0 := le_antisymm hr hge
      rw [hzero] at h1 ⊢
      simp at h1 ⊢
      exact h1

end Dacrs
