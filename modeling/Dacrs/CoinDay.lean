import Dacrs.Reward

/-!
# Coin days

The coin day of an account against exact integers.  `UpDateCoinDay` multiplies in 64 bits
(`upDateCoinDay_exact_iff`), `OperateAccount` settles what the balance has earned before it changes the
balance, and a reward is added without that.  `operateAccountMut` keeps the account a failed operation
leaves behind, which `operateAccount` drops.
-/

namespace Dacrs

namespace CAccount

variable (cfg : SysCfg)

/-! ## Exact integers -/

/-- The balance times the longest age that counts. -/
def maxCoinDay (a : CAccount) : ℤ := a.ullValues.toNat * cfg.getMaxDay

/-- The balance times the age at which an account may mine. -/
def minerCoinDay (a : CAccount) : ℤ := a.ullValues.toNat * cfg.nIntervalPos

/-- The coin day is within the cap. -/
def Capped (a : CAccount) : Prop := (a.ullCoinDay.toNat : ℤ) ≤ a.maxCoinDay cfg

theorem mul_ofInt_toNat (v : UInt64) (n : ℤ) :
    ((v * UInt64.ofInt n).toNat : ℤ) = (v.toNat * n) % 2 ^ 64 := by
  rw [UInt64.toNat_mul, Int.natCast_emod, Int.natCast_mul, UInt64_toNat_ofInt]
  simp [Int.mul_emod]

theorem getMaxCoinDay_toNat (a : CAccount) :
    ((a.getMaxCoinDay cfg).toNat : ℤ) = a.maxCoinDay cfg % 2 ^ 64 :=
  mul_ofInt_toNat a.ullValues cfg.getMaxDay

/-! ## Accrual -/

/-- What the coin day of a later height comes to. -/
theorem upDateCoinDay_toNat (a : CAccount) {h : ℤ} (hh : 0 < h) :
    ((a.upDateCoinDay cfg (a.nHeight + h)).ullCoinDay.toNat : ℤ)
      = min ((a.ullCoinDay.toNat + a.ullValues.toNat * h) % 2 ^ 64) (a.maxCoinDay cfg % 2 ^ 64) := by
  have hsum : ((a.ullCoinDay + a.ullValues * UInt64.ofInt (a.nHeight + h - a.nHeight)).toNat : ℤ)
      = (a.ullCoinDay.toNat + a.ullValues.toNat * h) % 2 ^ 64 := by
    have hmul := mul_ofInt_toNat a.ullValues h
    rw [show a.nHeight + h - a.nHeight = h by omega, UInt64.toNat_add]
    omega
  have hmax := a.getMaxCoinDay_toNat cfg
  unfold upDateCoinDay
  rw [if_neg (by omega), if_neg (by omega)]
  dsimp only
  rw [← hsum, ← hmax]
  split
  · next hgt =>
    have hlt := UInt64.lt_iff_toNat_lt.mp hgt
    exact (min_eq_right (by exact_mod_cast hlt.le)).symm
  · next hle =>
    have hle' := UInt64.le_iff_toNat_le.mp (UInt64.not_lt.mp hle)
    exact (min_eq_left (by exact_mod_cast hle')).symm

theorem upDateCoinDay_nHeight (a : CAccount) {h : ℤ} (hh : a.nHeight ≤ h) :
    (a.upDateCoinDay cfg h).nHeight = h := by
  unfold upDateCoinDay
  rw [if_neg (by omega)]
  split
  · next heq => exact heq.symm
  · dsimp only
    split
    · rfl
    · rfl

/-- At the height of the last update, and below, nothing is settled. -/
theorem upDateCoinDay_of_le (a : CAccount) {h : ℤ} (hh : h ≤ a.nHeight) : a.upDateCoinDay cfg h = a := by
  unfold upDateCoinDay
  by_cases hlt : h < a.nHeight
  · rw [if_pos hlt]
  · rw [if_neg hlt, if_pos (by omega)]

/-- What the coin day comes to at a height, from the account as it is stored. -/
def settledCoinDay (a : CAccount) (h : ℤ) : ℤ :=
  if h ≤ a.nHeight then a.ullCoinDay.toNat
  else min ((a.ullCoinDay.toNat + a.ullValues.toNat * (h - a.nHeight)) % 2 ^ 64) (a.maxCoinDay cfg % 2 ^ 64)

theorem upDateCoinDay_settled (a : CAccount) (h : ℤ) :
    ((a.upDateCoinDay cfg h).ullCoinDay.toNat : ℤ) = a.settledCoinDay cfg h := by
  unfold settledCoinDay
  by_cases hle : h ≤ a.nHeight
  · rw [if_pos hle, a.upDateCoinDay_of_le cfg hle]
  · rw [if_neg hle]
    have hsum := a.upDateCoinDay_toNat cfg (show 0 < h - a.nHeight by omega)
    rwa [show a.nHeight + (h - a.nHeight) = h by omega] at hsum

theorem settledCoinDay_nonneg (a : CAccount) (h : ℤ) : 0 ≤ a.settledCoinDay cfg h := by
  rw [← upDateCoinDay_settled]
  omega

theorem settledCoinDay_lt (a : CAccount) (h : ℤ) : a.settledCoinDay cfg h < 2 ^ 64 := by
  rw [← upDateCoinDay_settled]
  exact_mod_cast (a.upDateCoinDay cfg h).ullCoinDay.toNat_lt

/-- Settling gives no more than the balance for each block. -/
theorem settledCoinDay_le (a : CAccount) {h : ℤ} (hh : a.nHeight ≤ h) :
    a.settledCoinDay cfg h ≤ a.ullCoinDay.toNat + a.ullValues.toNat * (h - a.nHeight) := by
  have hearned : (0 : ℤ) ≤ a.ullValues.toNat * (h - a.nHeight) := mul_nonneg (by omega) (by omega)
  unfold settledCoinDay
  generalize (a.ullValues.toNat : ℤ) * (h - a.nHeight) = earned at *
  split
  · omega
  · omega

/-- Settling keeps the coin day within the cap. -/
theorem settledCoinDay_le_max (a : CAccount) (h : ℤ) (hcap : a.Capped cfg) :
    a.settledCoinDay cfg h ≤ a.maxCoinDay cfg := by
  unfold Capped at hcap
  unfold settledCoinDay
  generalize (a.ullValues.toNat : ℤ) * (h - a.nHeight) = earned
  split
  · exact hcap
  · omega

/-- Neither product reaches 2^64, or what is left of the one that does is no smaller than the other. -/
def AccrualFits (a : CAccount) (h : ℤ) : Prop :=
  (a.maxCoinDay cfg < 2 ^ 64 ∨ (a.ullCoinDay.toNat + a.ullValues.toNat * h < 2 ^ 64 ∧
    a.ullCoinDay.toNat + a.ullValues.toNat * h ≤ a.maxCoinDay cfg % 2 ^ 64)) ∧
  (a.ullCoinDay.toNat + a.ullValues.toNat * h < 2 ^ 64 ∨
    a.maxCoinDay cfg ≤ (a.ullCoinDay.toNat + a.ullValues.toNat * h) % 2 ^ 64)

instance instDecidableAccrualFits (a : CAccount) (h : ℤ) : Decidable (AccrualFits cfg a h) := by
  unfold AccrualFits
  infer_instance

/-- `UpDateCoinDay` adds the balance for each block, up to the cap, exactly when the products fit. -/
theorem upDateCoinDay_exact_iff (a : CAccount) (h : ℤ) (hh : 0 < h) (hcap : a.Capped cfg) :
    (((a.upDateCoinDay cfg (a.nHeight + h)).ullCoinDay.toNat : ℤ)
        = min (a.ullCoinDay.toNat + a.ullValues.toNat * h) (a.maxCoinDay cfg) ∧
      (a.upDateCoinDay cfg (a.nHeight + h)).nHeight = a.nHeight + h) ↔ AccrualFits cfg a h := by
  rw [upDateCoinDay_toNat cfg a hh, and_iff_left (a.upDateCoinDay_nHeight cfg (by omega))]
  have hearned : (0 : ℤ) ≤ a.ullValues.toNat * h := by positivity
  unfold Capped at hcap
  unfold AccrualFits
  generalize (a.ullValues.toNat : ℤ) * h = earned at *
  generalize a.maxCoinDay cfg = cap at *
  omega

end CAccount

/-! ### On two accounts -/

namespace Sample

/-- As much money as there can be, and no coin days. -/
def richHolder : CAccount := { holder with ullValues := 100000000000000000 }

/-- A thousand blocks later the product is past 2^64. -/
theorem accrual_wraps : ¬ ∀ (a : CAccount) (h : ℤ), (a.ullValues.toNat : ℤ) ≤ cfg.getMaxMoney →
    0 < h → a.Capped cfg →
    ((a.upDateCoinDay cfg (a.nHeight + h)).ullCoinDay.toNat : ℤ)
      = min (a.ullCoinDay.toNat + a.ullValues.toNat * h) (a.maxCoinDay cfg) := by
  intro hall
  have h := hall richHolder 1000 (by decide) (by decide) (by unfold CAccount.Capped; decide)
  revert h
  decide +kernel

/-- Ten coins held for a thousand blocks. -/
theorem upDateCoinDay_exact_iff_holder :
    ((holder.upDateCoinDay cfg (holder.nHeight + 1000)).ullCoinDay.toNat : ℤ)
        = min ((holder.ullCoinDay.toNat : ℤ) + holder.ullValues.toNat * 1000) (holder.maxCoinDay cfg) ∧
      (holder.upDateCoinDay cfg (holder.nHeight + 1000)).nHeight = holder.nHeight + 1000 :=
  (CAccount.upDateCoinDay_exact_iff cfg holder 1000 (by decide) (by unfold CAccount.Capped; decide)).mpr
    (by decide +kernel)

end Sample

end Dacrs
