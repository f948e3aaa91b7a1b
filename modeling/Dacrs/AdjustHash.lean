import Mathlib.Data.Nat.Size
import Dacrs.Lib.Machine
import Dacrs.Pos
import Dacrs.Sample

/-!
# The target of a miner

`GetAdjustHash` doubles the target for every binary digit of the coin days and stops at the limit.
`getAdjustHash_exact` is its closed form, with the loop as the source runs it: `adjustTarget`, the
loop by its number of turns, is what that loop stops with (`adjustTurn_runs`).
-/

open Codec (Bytes)

namespace Dacrs

open Machine (Turn Runs Reach)

/-! ## The loop -/

/-- One turn of `while (ullPosAcc)`, on the coin days left and the target so far. -/
def adjustTurn (cMinHash : Uint256) : Turn (UInt64 × Uint256) Uint256 Exit
  | (ullPosAcc, cAdjustHash) =>
    if ullPosAcc ≠ 0 then
      let cAdjustHash := cAdjustHash <<< 1
      let ullPosAcc := ullPosAcc >>> 1
      if cMinHash < cAdjustHash then .ok (.inr cMinHash) else .ok (.inl (ullPosAcc, cAdjustHash))
    else .ok (.inr cAdjustHash)

/-- The coin days the loop starts with. -/
def coinDays (cfg : SysCfg) (nPos : UInt64) : UInt64 :=
  max (nPos / UInt64.ofInt coin / UInt64.ofInt cfg.nIntervalPos) 1

section
variable {cMinHash : Uint256}

/-- A digit of the coin days goes with every turn. -/
theorem size_shiftRight {n : UInt64} (h : n ≠ 0) : n.toNat.size = (n >>> 1).toNat.size + 1 := by
  have hpos : n.toNat ≠ 0 := fun h0 => h (UInt64.toNat_inj.mp h0)
  have hshift : (n >>> 1).toNat = n.toNat / 2 := by
    rw [UInt64.toNat_shiftRight]
    rfl
  have hbit : Nat.bit n.toNat.bodd n.toNat.div2 = n.toNat := Nat.bit_bodd_div2 n.toNat
  rw [hshift, ← Nat.div2_val, ← hbit, Nat.size_bit (by rwa [hbit]), hbit]

/-- The loop stops with what its number of turns says. -/
theorem adjustTurn_runs (cMinHash : Uint256) (ullPosAcc : UInt64) (cAdjustHash : Uint256) :
    ∃ n, Runs (adjustTurn cMinHash) (ullPosAcc, cAdjustHash) n
      (.ok (adjustTarget cMinHash ullPosAcc.toNat.size cAdjustHash)) := by
  obtain ⟨k, hk⟩ : ∃ k, ullPosAcc.toNat.size = k := ⟨_, rfl⟩
  induction k generalizing ullPosAcc cAdjustHash with
  | zero =>
    have h0 : ullPosAcc = 0 := UInt64.toNat_inj.mp (Nat.size_eq_zero.mp hk)
    rw [hk]
    refine ⟨1, .result ?_⟩
    unfold adjustTurn
    dsimp only
    rw [if_neg (not_not.mpr h0)]
    rfl
  | succ k ih =>
    have hne : ullPosAcc ≠ 0 := by
      rintro rfl
      cases hk
    have hnext : (ullPosAcc >>> 1).toNat.size = k := by
      have hsize := size_shiftRight hne
      omega
    rw [hk, adjustTarget]
    by_cases hclamp : cMinHash < cAdjustHash <<< 1
    · refine ⟨1, .result ?_⟩
      unfold adjustTurn
      dsimp only
      rw [if_pos hne, if_pos hclamp, if_pos hclamp]
    · obtain ⟨n, hn⟩ := ih (ullPosAcc >>> 1) (cAdjustHash <<< 1) hnext
      rw [hnext] at hn
      rw [if_neg hclamp]
      refine ⟨n + 1, .next ?_ hn⟩
      unfold adjustTurn
      dsimp only
      rw [if_pos hne, if_neg hclamp]

/-! ## The closed form -/

theorem toNat_shiftLeft_one {x : Uint256} (h : x.toNat < 2 ^ 255) : (x <<< 1).toNat = x.toNat * 2 := by
  rw [BitVec.toNat_shiftLeft, Nat.shiftLeft_eq]
  omega

theorem adjustTarget_toNat {cAdjustHash : Uint256} (hlimit : cMinHash.toNat < 2 ^ 255)
    (hle : cAdjustHash ≤ cMinHash) (turns : ℕ) :
    (adjustTarget cMinHash turns cAdjustHash).toNat
      = min (cAdjustHash.toNat * 2 ^ turns) cMinHash.toNat := by
  induction turns generalizing cAdjustHash with
  | zero =>
    have hle' : cAdjustHash.toNat ≤ cMinHash.toNat := BitVec.le_def.mp hle
    rw [adjustTarget, pow_zero, mul_one, min_eq_left hle']
  | succ turns ih =>
    have hle' : cAdjustHash.toNat ≤ cMinHash.toNat := BitVec.le_def.mp hle
    have hdouble : (cAdjustHash <<< 1).toNat = cAdjustHash.toNat * 2 :=
      toNat_shiftLeft_one (by omega)
    rw [adjustTarget]
    by_cases hclamp : cMinHash < cAdjustHash <<< 1
    · -- the limit is passed for good
      have hover : cMinHash.toNat < cAdjustHash.toNat * 2 := by
        rw [← hdouble]
        exact BitVec.lt_def.mp hclamp
      have hmore : cAdjustHash.toNat * 2 ≤ cAdjustHash.toNat * 2 ^ (turns + 1) := by
        apply Nat.mul_le_mul_left
        exact Nat.le_self_pow (by omega) 2
      rw [if_pos hclamp, min_eq_right (by omega)]
    · rw [if_neg hclamp, ih (BitVec.not_lt.mp hclamp), hdouble, pow_succ']
      congr 1
      ring

/-- Nothing is shifted out before the limit is reached. -/
theorem adjustTurn_reach {start st : UInt64 × Uint256} (h : Reach (adjustTurn cMinHash) start st)
    (hle : start.2 ≤ cMinHash) : st.2 ≤ cMinHash := by
  refine Reach.invariant (P := fun st => st.2 ≤ cMinHash) hle ?_ h
  rintro ⟨acc, hash⟩ ⟨acc', hash'⟩ - hturn
  unfold adjustTurn at hturn
  dsimp only at hturn
  split at hturn
  · split at hturn
    · cases hturn
    · next hclamp =>
      obtain ⟨rfl, rfl⟩ := Prod.mk.inj (Sum.inl.inj (Except.ok.inj hturn))
      exact BitVec.not_lt.mp hclamp
  · cases hturn

end

/-- Whole coin days, at least one; the interval is converted to an unsigned number. -/
theorem coinDays_toNat (cfg : SysCfg) (nPos : UInt64) :
    (coinDays cfg nPos).toNat
      = max (nPos.toNat / (coin.toNat * (UInt64.ofInt cfg.nIntervalPos).toNat)) 1 := by
  have hdiv : (nPos / UInt64.ofInt coin / UInt64.ofInt cfg.nIntervalPos).toNat
      = nPos.toNat / (coin.toNat * (UInt64.ofInt cfg.nIntervalPos).toNat) := by
    rw [UInt64.toNat_div, UInt64.toNat_div, Nat.div_div_eq_div_mul]
    rfl
  have hone : (1 : UInt64).toNat = 1 := rfl
  unfold coinDays
  rw [← hdiv]
  generalize nPos / UInt64.ofInt coin / UInt64.ofInt cfg.nIntervalPos = days
  by_cases h : days ≤ 1
  · rw [max_eq_right (show days.toNat ≤ 1 from UInt64.le_iff_toNat_le.mp h)]
    show (if days ≤ 1 then 1 else days).toNat = 1
    rw [if_pos h, hone]
  · have hlt : 1 < days.toNat := by
      have hnot := mt UInt64.le_iff_toNat_le.mpr h
      omega
    rw [max_eq_left (by omega)]
    show (if days ≤ 1 then 1 else days).toNat = days.toNat
    rw [if_neg h]

/-- The target doubled for every binary digit of the coin days, up to the limit. -/
theorem getAdjustHash_toNat (cfg : SysCfg) {targetHash : Uint256} (nPos : UInt64)
    (hlimit : cfg.bnProofOfWorkLimit.toNat < 2 ^ 255) (hle : targetHash ≤ cfg.bnProofOfWorkLimit) :
    (getAdjustHash cfg targetHash nPos).toNat
      = min (targetHash.toNat * 2 ^ (coinDays cfg nPos).toNat.size) cfg.bnProofOfWorkLimit.toNat :=
  adjustTarget_toNat hlimit hle _

theorem getAdjustHash_mono (cfg : SysCfg) {targetHash targetHash' : Uint256} {nPos nPos' : UInt64}
    (hlimit : cfg.bnProofOfWorkLimit.toNat < 2 ^ 255) (hle : targetHash' ≤ cfg.bnProofOfWorkLimit)
    (htarget : targetHash ≤ targetHash') (hpos : nPos ≤ nPos') :
    getAdjustHash cfg targetHash nPos ≤ getAdjustHash cfg targetHash' nPos' := by
  have hle' : targetHash ≤ cfg.bnProofOfWorkLimit := BitVec.le_trans htarget hle
  have hdays : (coinDays cfg nPos).toNat.size ≤ (coinDays cfg nPos').toNat.size := by
    apply Nat.size_le_size
    rw [coinDays_toNat, coinDays_toNat]
    exact max_le_max (Nat.div_le_div_right (UInt64.le_iff_toNat_le.mp hpos)) le_rfl
  rw [BitVec.le_def, getAdjustHash_toNat cfg nPos hlimit hle', getAdjustHash_toNat cfg nPos' hlimit hle]
  apply min_le_min _ le_rfl
  apply Nat.mul_le_mul (BitVec.le_def.mp htarget)
  exact Nat.pow_le_pow_right (by omega) hdays

/-- `GetAdjustHash` below a limit of less than 255 bits, with an interval that one can divide by: the loop ends,
never loses a bit, and its result is the closed form; so it never exceeds the limit and grows with the target
and the age. -/
theorem getAdjustHash_exact (cfg : SysCfg) (targetHash : Uint256) (nPos : UInt64)
    (_hinterval : cfg.nIntervalPos ≠ 0) (hlimit : cfg.bnProofOfWorkLimit.toNat < 2 ^ 255)
    (hle : targetHash ≤ cfg.bnProofOfWorkLimit) :
    (∃ n, Runs (adjustTurn cfg.bnProofOfWorkLimit) (coinDays cfg nPos, targetHash) n
        (.ok (getAdjustHash cfg targetHash nPos))) ∧
      (∀ st, Reach (adjustTurn cfg.bnProofOfWorkLimit) (coinDays cfg nPos, targetHash) st →
        (st.2 <<< 1).toNat = st.2.toNat * 2) ∧
      (getAdjustHash cfg targetHash nPos).toNat
        = min (targetHash.toNat * 2 ^ (max (nPos.toNat /
            (coin.toNat * (UInt64.ofInt cfg.nIntervalPos).toNat)) 1).size)
          cfg.bnProofOfWorkLimit.toNat ∧
      getAdjustHash cfg targetHash nPos ≤ cfg.bnProofOfWorkLimit ∧
      (∀ nPos', nPos ≤ nPos' → getAdjustHash cfg targetHash nPos ≤ getAdjustHash cfg targetHash nPos') ∧
      ∀ targetHash', targetHash' ≤ targetHash →
        getAdjustHash cfg targetHash' nPos ≤ getAdjustHash cfg targetHash nPos := by
  have hvalue := getAdjustHash_toNat cfg nPos hlimit hle
  refine ⟨adjustTurn_runs _ _ _, ?_, ?_, ?_, ?_, ?_⟩
  · intro st hst
    have hbelow : st.2.toNat ≤ cfg.bnProofOfWorkLimit.toNat :=
      BitVec.le_def.mp (adjustTurn_reach hst hle)
    exact toNat_shiftLeft_one (by omega)
  · rw [hvalue, coinDays_toNat]
  · rw [BitVec.le_def, hvalue]
    exact min_le_right _ _
  · intro nPos' hpos
    exact getAdjustHash_mono cfg hlimit hle (BitVec.le_refl _) hpos
  · intro targetHash' htarget
    exact getAdjustHash_mono cfg hlimit hle htarget (UInt64.le_refl _)

/-- Nine coin days under the main network's limit: the target moves up four bits. -/
theorem getAdjustHash_exact_main :
    (getAdjustHash Sample.cfg (BitVec.ofNat 256 (2 ^ 230)) (UInt64.ofInt (9 * 1440 * coin))).toNat
      = 2 ^ 234 := by
  have h := (getAdjustHash_exact Sample.cfg (BitVec.ofNat 256 (2 ^ 230))
    (UInt64.ofInt (9 * 1440 * coin)) (by decide) (by decide) (by decide)).2.2.1
  rw [h]
  decide

end Dacrs
