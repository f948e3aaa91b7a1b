import Mathlib.Algebra.Order.Floor.Ring
import Mathlib.Data.Int.Log
import Mathlib.Tactic

/-!
# Binary floating point

Values of a binary format are rationals; `round p` rounds to the nearest value with `p`
significant bits, ties to the even significand (24 bits: `float`, 53 bits: `double`).
Exponents are unbounded: nothing here is about overflow, infinities or subnormals.
-/

namespace Binary

/-- Nearest integer, ties to even. -/
def roundHalfEven (q : ℚ) : ℤ :=
  if q - ⌊q⌋ < 1 / 2 then ⌊q⌋
  else if 1 / 2 < q - ⌊q⌋ then ⌊q⌋ + 1
  else if ⌊q⌋ % 2 = 0 then ⌊q⌋ else ⌊q⌋ + 1

/-- The weight of the last bit of a significand of `p` bits. -/
def ulp (p : ℕ) (q : ℚ) : ℚ := (2 : ℚ) ^ (Int.log 2 |q| + 1 - p)

/-- The result of an operation whose exact value is `q`. -/
def round (p : ℕ) (q : ℚ) : ℚ := if q = 0 then 0 else roundHalfEven (q / ulp p q) * ulp p q

/-- Conversion to an integer type drops the fraction. -/
def trunc (q : ℚ) : ℤ := if 0 ≤ q then ⌊q⌋ else ⌈q⌉

/-! ## Bounds -/

theorem le_roundHalfEven (q : ℚ) : (⌊q⌋ : ℤ) ≤ roundHalfEven q := by
  unfold roundHalfEven
  split
  · exact le_refl _
  · split
    · omega
    · split <;> omega

theorem roundHalfEven_le (q : ℚ) : (roundHalfEven q : ℚ) ≤ q + 1 := by
  have hfloor := Int.floor_le q
  unfold roundHalfEven
  split
  · linarith
  · split
    · push_cast
      linarith
    · split
      · linarith
      · push_cast
        linarith

theorem ulp_pos (p : ℕ) (q : ℚ) : 0 < ulp p q := zpow_pos (by norm_num) _

@[simp] theorem round_zero (p : ℕ) : round p 0 = 0 := if_pos rfl

/-- Rounding keeps the sign. -/
theorem round_nonneg (p : ℕ) {q : ℚ} (h : 0 ≤ q) : 0 ≤ round p q := by
  unfold round
  split
  · exact le_refl _
  · have hdiv : 0 ≤ q / ulp p q := div_nonneg h (ulp_pos p q).le
    have hint : (0 : ℤ) ≤ roundHalfEven (q / ulp p q) :=
      (Int.floor_nonneg.mpr hdiv).trans (le_roundHalfEven _)
    exact mul_nonneg (by exact_mod_cast hint) (ulp_pos p q).le

/-- The last bit weighs at most the value. -/
theorem ulp_le {p : ℕ} (hp : 1 ≤ p) {q : ℚ} (h : 0 < q) : ulp p q ≤ q := by
  have hlog := Int.zpow_log_le_self (b := 2) (by norm_num) h
  have habs : |q| = q := abs_of_pos h
  have hp' : (1 : ℤ) ≤ p := by exact_mod_cast hp
  unfold ulp
  rw [habs]
  calc (2 : ℚ) ^ (Int.log 2 q + 1 - p) ≤ (2 : ℚ) ^ Int.log 2 q :=
        zpow_le_zpow_right₀ (by norm_num) (by omega)
    _ ≤ q := by exact_mod_cast hlog

/-- A crude bound on what rounding adds. -/
theorem round_le_two_mul {p : ℕ} (hp : 1 ≤ p) {q : ℚ} (h : 0 ≤ q) : round p q ≤ 2 * q := by
  unfold round
  split
  · linarith
  · next hne =>
    have hpos : 0 < q := lt_of_le_of_ne h (Ne.symm hne)
    have hulp := ulp_pos p q
    calc (roundHalfEven (q / ulp p q) : ℚ) * ulp p q
        ≤ (q / ulp p q + 1) * ulp p q :=
          mul_le_mul_of_nonneg_right (roundHalfEven_le _) hulp.le
      _ = q + ulp p q := by field_simp
      _ ≤ 2 * q := by linarith [ulp_le hp hpos]

/-- Rounding never falls below the value's leading bit. -/
theorem zpow_log_le_round {p : ℕ} (hp : 1 ≤ p) {q : ℚ} (h : 0 < q) :
    (2 : ℚ) ^ Int.log 2 q ≤ round p q := by
  have hself := Int.zpow_log_le_self (b := 2) (by norm_num) h
  have hlog : (2 : ℚ) ^ Int.log 2 q ≤ q := by exact_mod_cast hself
  have hulp : ulp p q = (2 : ℚ) ^ (Int.log 2 q + 1 - p) := by rw [ulp, abs_of_pos h]
  have hpos := ulp_pos p q
  -- in units of the last bit the leading bit is an integer
  have hunits : (2 : ℚ) ^ Int.log 2 q = ((2 ^ (p - 1) : ℤ) : ℚ) * ulp p q := by
    rw [hulp]
    push_cast
    rw [← zpow_natCast (2 : ℚ) (p - 1), ← zpow_add₀ (by norm_num)]
    congr 1
    omega
  have hfloor : (2 ^ (p - 1) : ℤ) ≤ ⌊q / ulp p q⌋ := by
    rw [Int.le_floor, le_div_iff₀ hpos, ← hunits]
    exact hlog
  have hround : ((2 ^ (p - 1) : ℤ) : ℚ) ≤ roundHalfEven (q / ulp p q) := by
    exact_mod_cast hfloor.trans (le_roundHalfEven _)
  rw [round, if_neg h.ne', hunits]
  exact mul_le_mul_of_nonneg_right hround hpos.le

theorem round_pos {p : ℕ} (hp : 1 ≤ p) {q : ℚ} (h : 0 < q) : 0 < round p q :=
  (zpow_pos (by norm_num) _).trans_le (zpow_log_le_round hp h)

theorem one_le_round {p : ℕ} (hp : 1 ≤ p) {q : ℚ} (h : 1 ≤ q) : 1 ≤ round p q := by
  have hlog : 0 ≤ Int.log 2 q := by
    rw [Int.log_of_one_le_right 2 h]
    exact Int.natCast_nonneg _
  exact (one_le_zpow₀ (by norm_num) hlog).trans (zpow_log_le_round hp (by linarith))

theorem ulp_neg (p : ℕ) (q : ℚ) : ulp p (-q) = ulp p q := by simp [ulp]

/-- Rounding to the nearest even value is symmetric. -/
theorem roundHalfEven_neg (q : ℚ) : roundHalfEven (-q) = -roundHalfEven q := by
  have hfrac : q - ⌊q⌋ = Int.fract q := rfl
  by_cases hz : Int.fract q = 0
  · -- an integer
    have hq : (⌊q⌋ : ℚ) = q := by linarith [Int.self_sub_floor q]
    have hn : ⌊-q⌋ = -⌊q⌋ := by
      rw [← hq, ← Int.cast_neg, Int.floor_intCast, Int.floor_intCast]
    simp [roundHalfEven, hn, hq]
  · have hneg : ⌊-q⌋ = -⌊q⌋ - 1 := by
      rw [Int.floor_neg, Int.ceil_eq_floor_add_one_iff_notMem _ |>.mpr]
      · ring
      · rintro ⟨n, hn⟩
        exact hz (by rw [← hn, Int.fract_intCast])
    have hsub : -q - (⌊-q⌋ : ℚ) = 1 - (q - ⌊q⌋) := by
      rw [hneg]
      push_cast
      ring
    unfold roundHalfEven
    rw [hsub, hneg]
    have hlt := Int.fract_lt_one q
    rw [← hfrac] at hlt
    split_ifs <;> first | omega | (exfalso; linarith)

theorem round_neg (p : ℕ) (q : ℚ) : round p (-q) = -round p q := by
  unfold round
  rw [ulp_neg, neg_div, roundHalfEven_neg]
  by_cases h : q = 0
  · simp [h]
  · rw [if_neg (neg_ne_zero.mpr h), if_neg h]
    push_cast
    ring

theorem trunc_nonneg {q : ℚ} (h : 0 ≤ q) : 0 ≤ trunc q := by
  unfold trunc
  rw [if_pos h]
  exact Int.floor_nonneg.mpr h

theorem trunc_le {q : ℚ} (h : 0 ≤ q) : (trunc q : ℚ) ≤ q := by
  unfold trunc
  rw [if_pos h]
  exact Int.floor_le q

theorem trunc_neg (q : ℚ) : trunc (-q) = -trunc q := by
  unfold trunc
  rcases lt_trichotomy q 0 with h | rfl | h
  · rw [if_pos (by linarith), if_neg (by linarith), Int.floor_neg]
  · simp
  · rw [if_neg (by linarith), if_pos h.le, Int.ceil_neg]

end Binary
