import Mathlib.Data.Nat.Size
import Dacrs.Lib.Limbs
import Dacrs.Burn
import Dacrs.Pos
import Dacrs.Sample

/-!
# The next target

`GetNextWorkRequired` multiplies the last target with a sum of block spacings and divides it by a
constant.  `operator*=` takes the sum as a `uint32_t` and keeps 256 bits of the product;
`getNextWorkRequired_exact_iff` says when nothing is lost by that.
-/

namespace Dacrs

namespace ArithUint256

/-! ## Multiplication and division -/

/-- `operator*=(uint32_t)`: its loop carries the products of the digits from one to the next, and drops what is
carried out of the last one. -/
def mulUInt32 (a : Uint256) (b32 : UInt32) : Uint256 :=
  BitVec.ofNat 256 (Limbs.value 32 (Limbs.ripple 32 ((Limbs.limbs 32 8 a.toNat).map (b32.toNat * ·)) 0))

/-- The loop of `operator/=`, on the remainder, the shifted divisor and the quotient. -/
def divLoop : ℕ → ℕ → ℕ → ℕ → ℕ
  | 0, _, _, quotient => quotient
  | shift + 1, num, div, quotient =>
    if div ≤ num then divLoop shift (num - div) (div / 2) (quotient ||| 2 ^ shift)
    else divLoop shift num (div / 2) quotient

/-- `operator/=`; `none` is `uint_error`.  The shifted divisor has as many bits as the number. -/
def divide (num div : ℕ) : Option ℕ :=
  if div.size = 0 then none
  else if num.size < div.size then some 0
  else some (divLoop (num.size - div.size + 1) num (div * 2 ^ (num.size - div.size)) 0)

/-- The product modulo 2^256. -/
theorem mulUInt32_toNat (a : Uint256) (b32 : UInt32) :
    (mulUInt32 a b32).toNat = a.toNat * b32.toNat % 2 ^ 256 := by
  have hlimbs : (2 ^ 32) ^ 8 = 2 ^ 256 := (pow_mul 2 32 8).symm
  unfold mulUInt32
  rw [BitVec.toNat_ofNat, Limbs.value_ripple, Limbs.value_mul, Limbs.value_limbs, List.length_map,
    Limbs.length_limbs, hlimbs, Nat.mod_eq_of_lt a.isLt, Nat.add_zero, Nat.mod_mod, Nat.mul_comm]

theorem or_two_pow {quotient shift : ℕ} (h : 2 ^ (shift + 1) ∣ quotient) :
    quotient ||| 2 ^ shift = quotient + 2 ^ shift := by
  obtain ⟨k, rfl⟩ := h
  exact (Nat.two_pow_add_eq_or_of_lt (Nat.pow_lt_pow_right (by omega) (by omega)) k).symm

/-- The turns that are left divide what is left of the number. -/
theorem divLoop_eq (div : ℕ) (hdiv : 0 < div) (shift : ℕ) : ∀ num quotient : ℕ, num < div * 2 ^ shift →
    2 ^ shift ∣ quotient → divLoop shift num (div * 2 ^ shift / 2) quotient = quotient + num / div := by
  induction shift with
  | zero =>
    intro num quotient hnum _
    rw [pow_zero, mul_one] at hnum
    rw [divLoop, Nat.div_eq_of_lt hnum, Nat.add_zero]
  | succ shift ih =>
    intro num quotient hnum hquot
    have hhalf : div * 2 ^ (shift + 1) / 2 = div * 2 ^ shift := by
      rw [pow_succ, ← mul_assoc, Nat.mul_div_cancel _ (by omega)]
    rw [hhalf, divLoop]
    split
    · next hle =>
      have hnum' : num - div * 2 ^ shift < div * 2 ^ shift := by
        rw [pow_succ, ← mul_assoc] at hnum
        omega
      have hdvd : 2 ^ shift ∣ quotient + 2 ^ shift :=
        Dvd.dvd.add (dvd_trans (pow_dvd_pow 2 (by omega)) hquot) (dvd_refl _)
      rw [or_two_pow hquot, ih _ _ hnum' hdvd, Nat.sub_mul_div, Nat.add_assoc]
      congr 1
      have hone : 2 ^ shift ≤ num / div := by
        rw [Nat.le_div_iff_mul_le hdiv, mul_comm]
        exact hle
      omega
    · next hlt =>
      exact ih _ _ (not_le.mp hlt) (dvd_trans (pow_dvd_pow 2 (by omega)) hquot)

/-- `operator/=` is division. -/
theorem divide_eq {num div : ℕ} (hdiv : 0 < div) : divide num div = some (num / div) := by
  have hsize : 0 < div.size := Nat.size_pos.mpr hdiv
  unfold divide
  rw [if_neg (by omega)]
  split
  · next hlt =>
    rw [Nat.div_eq_of_lt]
    by_contra hle
    have hmono := Nat.size_le_size (not_lt.mp hle)
    omega
  · next hle =>
    have hnum : num < div * 2 ^ (num.size - div.size + 1) := by
      have hlow : 2 ^ (div.size - 1) ≤ div := Nat.lt_size.mp (by omega)
      calc num < 2 ^ num.size := Nat.lt_size_self num
        _ = 2 ^ (div.size - 1) * 2 ^ (num.size - div.size + 1) := by
          rw [← pow_add]
          congr 1
          omega
        _ ≤ div * 2 ^ (num.size - div.size + 1) := Nat.mul_le_mul_right _ hlow
    have hloop := divLoop_eq div hdiv (num.size - div.size + 1) num 0 hnum (dvd_zero _)
    rw [pow_succ, ← mul_assoc, Nat.mul_div_cancel _ (by omega), Nat.zero_add] at hloop
    rw [hloop]

/-! ## The compact form -/

/-- `GetCompact`: three digits of base 256 and their position; the top bit of the three is left
for the sign. -/
def getCompact (a : Uint256) : UInt32 :=
  let nSize := (a.toNat.size + 7) / 8
  let nCompact := if nSize ≤ 3 then a.toNat * 256 ^ (3 - nSize) else a.toNat / 256 ^ (nSize - 3)
  if nCompact / 2 ^ 23 % 2 = 1 then UInt32.ofNat (nCompact / 256 + (nSize + 1) * 2 ^ 24)
  else UInt32.ofNat (nCompact + nSize * 2 ^ 24)

/-- `w` and `n` are the digits and the position for `a`. -/
structure CompactOf (a w n : ℕ) : Prop where
  digits : w < 2 ^ 23
  size : n < 256
  small : n ≤ 3 → a * 256 ^ (3 - n) = w
  large : 3 < n → 2 ^ 15 ≤ w ∧ w * 256 ^ (n - 3) ≤ a ∧ a < (w + 1) * 256 ^ (n - 3)

theorem lt_bytes (a : ℕ) : a < 256 ^ ((a.size + 7) / 8) := by
  have hpow : (256 : ℕ) ^ ((a.size + 7) / 8) = 2 ^ (8 * ((a.size + 7) / 8)) := by
    rw [pow_mul]
    norm_num
  calc a < 2 ^ a.size := Nat.lt_size_self a
    _ ≤ 256 ^ ((a.size + 7) / 8) := by
      rw [hpow]
      exact Nat.pow_le_pow_right (by omega) (by omega)

theorem bytes_le {a k : ℕ} (h : (a.size + 7) / 8 = k + 1) : 256 ^ k ≤ a := by
  have hpow : (256 : ℕ) ^ k = 2 ^ (8 * k) := by
    rw [pow_mul]
    norm_num
  rw [hpow]
  apply Nat.lt_size.mp
  omega

theorem bytes_le_32 (a : Uint256) : (a.toNat.size + 7) / 8 ≤ 32 := by
  have hsize : a.toNat.size ≤ 256 := Nat.size_le.mpr a.isLt
  omega

/-- What the division by a power of 256 leaves. -/
theorem div_bounds (a k : ℕ) : a / 256 ^ k * 256 ^ k ≤ a ∧ a < (a / 256 ^ k + 1) * 256 ^ k := by
  have hpos : 0 < 256 ^ k := Nat.pow_pos (by omega)
  refine ⟨Nat.div_mul_le_self a _, ?_⟩
  rw [Nat.add_mul, one_mul]
  exact Nat.lt_div_mul_add hpos

/-- Three digits: a short number raised to them, a long one cut down to them. -/
theorem raised_lt {a s : ℕ} (hs : s ≤ 3) (ha : a < 256 ^ s) : a * 256 ^ (3 - s) < 2 ^ 24 := by
  calc a * 256 ^ (3 - s) < 256 ^ s * 256 ^ (3 - s) :=
        Nat.mul_lt_mul_of_pos_right ha (Nat.pow_pos (by omega))
    _ = 2 ^ 24 := by
      rw [← pow_add, show s + (3 - s) = 3 by omega]
      norm_num

theorem lowered_lt {a s : ℕ} (hs : 3 < s) (ha : a < 256 ^ s) : a / 256 ^ (s - 3) < 2 ^ 24 := by
  apply Nat.div_lt_of_lt_mul
  calc a < 256 ^ s := ha
    _ = 256 ^ (s - 3) * 2 ^ 24 := by
      rw [show (2 : ℕ) ^ 24 = 256 ^ 3 by norm_num, ← pow_add]
      congr 1
      omega

theorem compactOf_small {a s : ℕ} (hs : s ≤ 3) (ha : a < 256 ^ s)
    (hbit : ¬ a * 256 ^ (3 - s) / 2 ^ 23 % 2 = 1) : CompactOf a (a * 256 ^ (3 - s)) s := by
  have hlt := raised_lt hs ha
  refine ⟨by omega, by omega, fun _ => rfl, fun h => ?_⟩
  omega

/-- The sign bit is in use: the digits move one down. -/
theorem compactOf_small_shift {a s : ℕ} (hs : s ≤ 3) (ha : a < 256 ^ s)
    (hbit : a * 256 ^ (3 - s) / 2 ^ 23 % 2 = 1) :
    CompactOf a (a * 256 ^ (3 - s) / 256) (s + 1) := by
  have hlt := raised_lt hs ha
  refine ⟨by omega, by omega, fun h => ?_, fun h => ?_⟩
  · rw [show 3 - s = 3 - (s + 1) + 1 by omega, pow_succ, ← mul_assoc,
      Nat.mul_div_cancel _ (by omega)]
  · have hs3 : s = 3 := by omega
    subst hs3
    rw [Nat.sub_self, pow_zero, mul_one] at *
    rw [show 3 + 1 - 3 = 1 from rfl, pow_one]
    refine ⟨?_, ?_, ?_⟩ <;> omega

theorem compactOf_large {a s : ℕ} (hs : 3 < s) (hs32 : s ≤ 32) (ha : a < 256 ^ s)
    (hle : 256 ^ (s - 1) ≤ a) (hbit : ¬ a / 256 ^ (s - 3) / 2 ^ 23 % 2 = 1) :
    CompactOf a (a / 256 ^ (s - 3)) s := by
  have hbounds := div_bounds a (s - 3)
  have hlt := lowered_lt hs ha
  have hge : 2 ^ 16 ≤ a / 256 ^ (s - 3) := by
    rw [Nat.le_div_iff_mul_le (Nat.pow_pos (by omega))]
    calc 2 ^ 16 * 256 ^ (s - 3) = 256 ^ (s - 1) := by
          rw [show (2 : ℕ) ^ 16 = 256 ^ 2 by norm_num, ← pow_add]
          congr 1
          omega
      _ ≤ a := hle
  refine ⟨by omega, by omega, fun h => ?_, fun _ => ⟨by omega, hbounds.1, hbounds.2⟩⟩
  omega

theorem compactOf_large_shift {a s : ℕ} (hs : 3 < s) (hs32 : s ≤ 32) (ha : a < 256 ^ s)
    (hbit : a / 256 ^ (s - 3) / 2 ^ 23 % 2 = 1) :
    CompactOf a (a / 256 ^ (s - 3) / 256) (s + 1) := by
  have hdigits : a / 256 ^ (s - 3) / 256 = a / 256 ^ (s + 1 - 3) := by
    rw [Nat.div_div_eq_div_mul, ← pow_succ, show s - 3 + 1 = s + 1 - 3 by omega]
  have hbounds := div_bounds a (s + 1 - 3)
  have hlt := lowered_lt hs ha
  have hge : 2 ^ 23 ≤ a / 256 ^ (s - 3) := by
    by_contra hsmall
    rw [Nat.div_eq_of_lt (not_le.mp hsmall)] at hbit
    omega
  refine ⟨by omega, by omega, fun h => ?_, fun _ => ⟨by omega, ?_, ?_⟩⟩
  · omega
  · rw [hdigits]
    exact hbounds.1
  · rw [hdigits]
    exact hbounds.2

/-- What `GetCompact` writes. -/
theorem getCompact_spec (a : Uint256) :
    ∃ w n, CompactOf a.toNat w n ∧ getCompact a = UInt32.ofNat (w + n * 2 ^ 24) := by
  have hlt := lt_bytes a.toNat
  have h32 := bytes_le_32 a
  have hle : 3 < (a.toNat.size + 7) / 8 → 256 ^ ((a.toNat.size + 7) / 8 - 1) ≤ a.toNat :=
    fun h => bytes_le (by omega)
  unfold getCompact
  dsimp only
  generalize (a.toNat.size + 7) / 8 = s at *
  by_cases hs : s ≤ 3
  · rw [if_pos hs]
    split
    · next hbit => exact ⟨_, _, compactOf_small_shift hs hlt hbit, rfl⟩
    · next hbit => exact ⟨_, _, compactOf_small hs hlt hbit, rfl⟩
  · rw [if_neg hs]
    split
    · next hbit => exact ⟨_, _, compactOf_large_shift (by omega) h32 hlt hbit, rfl⟩
    · next hbit => exact ⟨_, _, compactOf_large (by omega) h32 hlt (hle (by omega)) hbit, rfl⟩

/-- Two numbers with one compact form differ by less than one part in 2^15. -/
theorem getCompact_close {a b : Uint256} (h : getCompact a = getCompact b) (hle : a ≤ b) :
    (b.toNat - a.toNat) * 2 ^ 15 ≤ a.toNat := by
  obtain ⟨w, n, ha, hwa⟩ := getCompact_spec a
  obtain ⟨w', n', hb, hwb⟩ := getCompact_spec b
  have hle' : a.toNat ≤ b.toNat := BitVec.le_def.mp hle
  have hword : w + n * 2 ^ 24 = w' + n' * 2 ^ 24 := by
    have hnat := congrArg UInt32.toNat (hwa.symm.trans (h.trans hwb))
    rw [UInt32.toNat_ofNat', UInt32.toNat_ofNat'] at hnat
    have hd := ha.digits
    have hd' := hb.digits
    have hn := ha.size
    have hn' := hb.size
    omega
  have hd := ha.digits
  have hd' := hb.digits
  obtain rfl : n = n' := by omega
  obtain rfl : w = w' := by omega
  by_cases hn : n ≤ 3
  · have heq : a.toNat = b.toNat := by
      have hpos : 0 < 256 ^ (3 - n) := Nat.pow_pos (by omega)
      exact Nat.eq_of_mul_eq_mul_right hpos ((ha.small hn).trans (hb.small hn).symm)
    omega
  · obtain ⟨hw, hlow, hhigh⟩ := ha.large (by omega)
    obtain ⟨-, hlow', hhigh'⟩ := hb.large (by omega)
    rw [Nat.add_mul, one_mul] at hhigh'
    calc (b.toNat - a.toNat) * 2 ^ 15 ≤ 256 ^ (n - 3) * w := Nat.mul_le_mul (by omega) hw
      _ = w * 256 ^ (n - 3) := Nat.mul_comm _ _
      _ ≤ a.toNat := hlow

end ArithUint256

open ArithUint256

/-! ## The spacings -/

def CBlockIndex.getBlockTime (p : CBlockIndex) : ℤ := p.unTime.toNat

/-- The spacings of the last `nInterval` blocks, the last one first. -/
def blockSpacings (nInterval : ℤ) (chain : PBlockIndex) : List ℤ :=
  (List.zipWith (fun p pPre => p.getBlockTime - pPre.getBlockTime) chain chain.tail).take
    nInterval.toNat

/-- `GetAverageSpaceTime`: the spacings that are far from the quartiles are left out. -/
def getAverageSpaceTime (chain : PBlockIndex) (nInterval : ℤ) : ℤ :=
  let sorted := (blockSpacings nInterval chain).insertionSort fun a b => a ≤ b
  let llThreeQuarters := sorted.getD (sorted.length * 3 / 4) 0
  let llQuarter := sorted.getD (sorted.length / 4) 0
  let double (q : ℚ) : ℚ := Binary.round 53 q
  let margin := double (((llThreeQuarters - llQuarter : ℤ) : ℚ) * (3 / 2))
  let llUpBound := Binary.trunc (double (llThreeQuarters + margin))
  let llLowBound := Binary.trunc (double (llQuarter - margin))
  let kept := sorted.filter fun s => s ≤ llUpBound ∧ llLowBound ≤ s
  kept.sum.tdiv kept.length

/-- `GetTargetTimespan() / GetTargetSpacing()` -/
def SysCfg.llInterval (cfg : SysCfg) : ℤ := cfg.llTargetTimespan.tdiv cfg.llTargetSpacing

/-- The height from which only the last spacing counts. -/
def lastSpacingHeight : ℤ := 85000

/-- The last spacing above `lastSpacingHeight`, the average of an interval below. -/
def countedSpacing (cfg : SysCfg) (chain : PBlockIndex) : ℤ :=
  match chain with
  | pIndexPrev :: pIndexPrevPrev :: _ =>
    if lastSpacingHeight < pIndexPrev.nHeight then
      pIndexPrev.getBlockTime - pIndexPrevPrev.getBlockTime
    else getAverageSpaceTime chain cfg.llInterval
  | _ => 0

def totalSpacing (cfg : SysCfg) (chain : PBlockIndex) : ℤ :=
  (cfg.llInterval - 1) * cfg.llTargetSpacing + countedSpacing cfg chain + countedSpacing cfg chain

/-- The spacing sum of an interval that goes as planned. -/
def plannedSpacing (cfg : SysCfg) : ℤ := (cfg.llInterval + 1) * cfg.llTargetSpacing

/-! ## The target -/

/-- What `operator*=` is given, a `uint32_t`; `none` where the function returns before.  A negative
sum is caught above `lastSpacingHeight` only. -/
def multiplier (cfg : SysCfg) (chain : PBlockIndex) (pIndexPrev : CBlockIndex) : Option UInt32 :=
  if lastSpacingHeight < pIndexPrev.nHeight ∧ totalSpacing cfg chain < 0 then none
  else some (UInt32.ofInt (totalSpacing cfg chain))

/-- `cNew *= total; cNew /= ...`, and the limit. -/
def retarget (cfg : SysCfg) (cNew : Uint256) (total : UInt32) : Option Uint256 := do
  let quotient ← divide (mulUInt32 cNew total).toNat (UInt64.ofInt (plannedSpacing cfg)).toNat
  let cNew := BitVec.ofNat 256 quotient
  return if cfg.bnProofOfWorkLimit < cNew then cfg.bnProofOfWorkLimit else cNew

/-- `GetNextWorkRequired`; `none` is a division by zero. -/
def getNextWorkRequired (cfg : SysCfg) (chain : PBlockIndex) : Option UInt32 :=
  match chain with
  | pIndexPrev :: _ :: _ :: _ =>
    let cNew := setCompact pIndexPrev.unBits
    match multiplier cfg chain pIndexPrev with
    | none => some (getCompact cNew)
    | some total => (retarget cfg cNew total).map getCompact
  | _ => some (getCompact cfg.bnProofOfWorkLimit)

/-! ## Spacing sums -/

theorem blockSpacings_bounds {nInterval s : ℤ} {chain : PBlockIndex}
    (h : s ∈ blockSpacings nInterval chain) : -2 ^ 32 < s ∧ s < 2 ^ 32 := by
  have hmem := List.mem_of_mem_take h
  rw [← List.map_uncurry_zip_eq_zipWith] at hmem
  obtain ⟨⟨p, pPre⟩, -, rfl⟩ := List.mem_map.mp hmem
  have hp := p.unTime.toNat_lt
  have hpre := pPre.unTime.toNat_lt
  show -2 ^ 32 < p.getBlockTime - pPre.getBlockTime ∧ p.getBlockTime - pPre.getBlockTime < 2 ^ 32
  unfold CBlockIndex.getBlockTime
  omega

theorem sum_bounds {l : List ℤ} {bound : ℕ} (h : ∀ s ∈ l, -(bound : ℤ) < s ∧ s < bound) :
    l.sum.natAbs ≤ bound * l.length := by
  induction l with
  | nil => simp
  | cons s l ih =>
    have hs := h s List.mem_cons_self
    have hl := ih fun t ht => h t (List.mem_cons_of_mem s ht)
    rw [List.sum_cons, List.length_cons, Nat.mul_succ]
    omega

theorem average_bounds {l : List ℤ} {bound : ℕ} (h : ∀ s ∈ l, -(bound : ℤ) < s ∧ s < bound) :
    (l.sum.tdiv l.length).natAbs ≤ bound := by
  rw [Int.natAbs_tdiv, Int.natAbs_natCast]
  exact Nat.div_le_of_le_mul ((sum_bounds h).trans_eq (Nat.mul_comm _ _))

theorem getAverageSpaceTime_bounds (chain : PBlockIndex) (nInterval : ℤ) :
    (getAverageSpaceTime chain nInterval).natAbs ≤ 2 ^ 32 := by
  unfold getAverageSpaceTime
  apply average_bounds
  intro s hs
  have hsorted := List.mem_of_mem_filter hs
  exact_mod_cast blockSpacings_bounds ((List.mem_insertionSort _).mp hsorted)

theorem countedSpacing_bounds (cfg : SysCfg) (chain : PBlockIndex) :
    (countedSpacing cfg chain).natAbs ≤ 2 ^ 32 := by
  unfold countedSpacing
  split
  · next pIndexPrev pIndexPrevPrev _ =>
    split
    · have hp := pIndexPrev.unTime.toNat_lt
      have hpre := pIndexPrevPrev.unTime.toNat_lt
      unfold CBlockIndex.getBlockTime
      omega
    · exact getAverageSpaceTime_bounds _ _
  · simp

/-! ## The networks -/

/-- The parameters of the main and the test network, and those of the regression test network. -/
def SysCfg.RetargetParams (cfg : SysCfg) : Prop :=
  (cfg.bnProofOfWorkLimit.toNat = 2 ^ 246 - 1 ∧ cfg.llTargetSpacing = 60 ∧
    cfg.llTargetTimespan = 30 * 60) ∨
  (cfg.bnProofOfWorkLimit.toNat = 2 ^ 250 - 1 ∧ cfg.llTargetSpacing = 20 ∧
    cfg.llTargetTimespan = 30 * 20)

namespace SysCfg.RetargetParams
variable {cfg : SysCfg} (hcfg : cfg.RetargetParams)
include hcfg

theorem llInterval_eq : cfg.llInterval = 30 := by
  unfold SysCfg.llInterval
  obtain ⟨-, hspacing, htimespan⟩ | ⟨-, hspacing, htimespan⟩ := hcfg
  · rw [hspacing, htimespan]
    rfl
  · rw [hspacing, htimespan]
    rfl

theorem plannedSpacing_eq : plannedSpacing cfg = 1860 ∨ plannedSpacing cfg = 620 := by
  unfold plannedSpacing
  rw [hcfg.llInterval_eq]
  obtain ⟨-, hspacing, -⟩ | ⟨-, hspacing, -⟩ := hcfg <;> omega

/-- A `int64_t` holds every spacing sum. -/
theorem totalSpacing_bounds (chain : PBlockIndex) : (totalSpacing cfg chain).natAbs < 2 ^ 34 := by
  have hcounted := countedSpacing_bounds cfg chain
  unfold totalSpacing
  rw [hcfg.llInterval_eq]
  obtain ⟨-, hspacing, -⟩ | ⟨-, hspacing, -⟩ := hcfg <;> omega

theorem divisor_eq : (UInt64.ofInt (plannedSpacing cfg)).toNat = (plannedSpacing cfg).toNat := by
  obtain h | h := hcfg.plannedSpacing_eq
  · rw [h]
    rfl
  · rw [h]
    rfl

/-- The largest quotient of a 256-bit number is well below the limit. -/
theorem limit_gap : ∃ S : ℕ, plannedSpacing cfg = S ∧ 0 < S ∧ S ≤ 2 ^ 32 ∧
    (2 ^ 256 - 1) / S < cfg.bnProofOfWorkLimit.toNat ∧
    (2 ^ 256 - 1) / S < (cfg.bnProofOfWorkLimit.toNat - (2 ^ 256 - 1) / S) * 2 ^ 15 := by
  unfold plannedSpacing
  rw [hcfg.llInterval_eq]
  obtain ⟨hlimit, hspacing, -⟩ | ⟨hlimit, hspacing, -⟩ := hcfg
  · refine ⟨1860, ?_⟩
    rw [hspacing, hlimit]
    decide
  · refine ⟨620, ?_⟩
    rw [hspacing, hlimit]
    decide

end SysCfg.RetargetParams

/-! ## When nothing is lost -/

/-- The quotient of the wrapped product and the exact one are too far apart for one compact form. -/
theorem wrapped_apart {limit S T total : ℕ} (hS : 0 < S) (hS32 : S ≤ 2 ^ 32)
    (hbelow : (2 ^ 256 - 1) / S < limit)
    (hgap : (2 ^ 256 - 1) / S < (limit - (2 ^ 256 - 1) / S) * 2 ^ 15) (hT : 0 < T)
    (hlost : ¬ (total < 2 ^ 32 ∧ T * total < 2 ^ 256)) :
    T * (total % 2 ^ 32) % 2 ^ 256 / S ≤ min limit (T * total / S) ∧
      T * (total % 2 ^ 32) % 2 ^ 256 / S <
        (min limit (T * total / S) - T * (total % 2 ^ 32) % 2 ^ 256 / S) * 2 ^ 15 := by
  have hmax : T * (total % 2 ^ 32) % 2 ^ 256 / S ≤ (2 ^ 256 - 1) / S :=
    Nat.div_le_div_right (by omega)
  by_cases hlimit : limit ≤ T * total / S
  · -- the limit is what should have come out
    rw [min_eq_left hlimit]
    omega
  · rw [min_eq_right (by omega)]
    by_cases htotal : total < 2 ^ 32
    · -- the product has lost at least 2^256
      rw [Nat.mod_eq_of_lt htotal]
      have hwrap : 2 ^ 256 ≤ T * total := not_lt.mp fun h => hlost ⟨htotal, h⟩
      have hsum : T * total % 2 ^ 256 / S + 2 ^ 256 / S ≤ T * total / S :=
        Nat.div_add_div_le_add_div.trans (Nat.div_le_div_right (by omega))
      have hquot : (2 ^ 256 - 1) / S ≤ 2 ^ 256 / S := Nat.div_le_div_right (by omega)
      have hone : 2 ^ 256 / 2 ^ 32 ≤ 2 ^ 256 / S := Nat.div_le_div_left hS32 hS
      rw [Nat.mod_eq_of_lt htotal] at hmax
      omega
    · -- more than half of the sum was cut off
      have hhalf : 2 * (T * (total % 2 ^ 32)) ≤ T * total := by
        rw [Nat.mul_left_comm]
        exact Nat.mul_le_mul_left T (by omega)
      have hdouble : 2 * (T * (total % 2 ^ 32) % 2 ^ 256 / S) ≤ T * total / S := by
        rw [Nat.le_div_iff_mul_le hS]
        have hmod := Nat.mod_le (T * (total % 2 ^ 32)) (2 ^ 256)
        have hdiv := Nat.div_mul_le_self (T * (total % 2 ^ 32) % 2 ^ 256) S
        rw [Nat.mul_assoc]
        omega
      have hone : 0 < T * total / S := by
        apply Nat.div_pos _ hS
        calc S ≤ 2 ^ 32 := hS32
          _ ≤ 1 * total := by omega
          _ ≤ T * total := Nat.mul_le_mul_right total hT
      omega

theorem uint32_ofInt_toNat {n : ℤ} (h : 0 ≤ n) : (UInt32.ofInt n).toNat = n.toNat % 2 ^ 32 := by
  obtain ⟨k, rfl⟩ := Int.eq_ofNat_of_zero_le h
  have hnat : (UInt32.ofInt (k : ℤ)).toNat = ((k : ℤ) % 2 ^ 32).toNat := by
    unfold UInt32.ofInt
    rw [UInt32.toNat_ofNat']
    omega
  omega

theorem ite_lt_min (limit : Uint256) {q : ℕ} (hq : q < 2 ^ 256) :
    (if limit < BitVec.ofNat 256 q then limit else BitVec.ofNat 256 q)
      = BitVec.ofNat 256 (min limit.toNat q) := by
  have htoNat : (BitVec.ofNat 256 q).toNat = q := by
    rw [BitVec.toNat_ofNat, Nat.mod_eq_of_lt hq]
  by_cases h : limit < BitVec.ofNat 256 q
  · have hlt := BitVec.lt_def.mp h
    rw [htoNat] at hlt
    rw [if_pos h, min_eq_left (by omega), BitVec.ofNat_toNat, BitVec.setWidth_eq]
  · have hle := BitVec.le_def.mp (BitVec.not_lt.mp h)
    rw [htoNat] at hle
    rw [if_neg h, min_eq_right hle]

theorem SysCfg.RetargetParams.retarget_eq {cfg : SysCfg} (hcfg : cfg.RetargetParams)
    (cNew : Uint256) {total : ℤ} (htotal : 0 ≤ total) :
    retarget cfg cNew (UInt32.ofInt total) = some (BitVec.ofNat 256 (min cfg.bnProofOfWorkLimit.toNat
      (cNew.toNat * (total.toNat % 2 ^ 32) % 2 ^ 256 / (plannedSpacing cfg).toNat))) := by
  obtain ⟨S, hS, hpos, -, -, -⟩ := hcfg.limit_gap
  unfold retarget
  rw [hcfg.divisor_eq, hS, Int.toNat_natCast, divide_eq hpos, mulUInt32_toNat,
    uint32_ofInt_toNat htotal]
  have hquot : cNew.toNat * (total.toNat % 2 ^ 32) % 2 ^ 256 / S < 2 ^ 256 :=
    lt_of_le_of_lt (Nat.div_le_self _ _) (Nat.mod_lt _ (by norm_num))
  exact congrArg some (ite_lt_min _ hquot)

/-- What the retarget is for: the part of the target that the spacings ask for, and no factor from
a negative sum. -/
structure RetargetExact (cfg : SysCfg) (chain : PBlockIndex) (pIndexPrev : CBlockIndex) : Prop where
  exact : 0 ≤ totalSpacing cfg chain → getNextWorkRequired cfg chain
    = some (getCompact (BitVec.ofNat 256 (min cfg.bnProofOfWorkLimit.toNat
        ((setCompact pIndexPrev.unBits).toNat * (totalSpacing cfg chain).toNat /
          (plannedSpacing cfg).toNat))))
  negative : totalSpacing cfg chain < 0 → multiplier cfg chain pIndexPrev = none

/-- The compact forms of the code's quotient and of the exact one. -/
theorem SysCfg.RetargetParams.compact_eq_iff {cfg : SysCfg} (hcfg : cfg.RetargetParams) (T total : ℕ) :
    getCompact (BitVec.ofNat 256 (min cfg.bnProofOfWorkLimit.toNat
        (T * (total % 2 ^ 32) % 2 ^ 256 / (plannedSpacing cfg).toNat)))
      = getCompact (BitVec.ofNat 256 (min cfg.bnProofOfWorkLimit.toNat
        (T * total / (plannedSpacing cfg).toNat)))
      ↔ T = 0 ∨ (total < 2 ^ 32 ∧ T * total < 2 ^ 256) := by
  obtain ⟨S, hS, hpos, hS32, hbelow, hgap⟩ := hcfg.limit_gap
  rw [hS, Int.toNat_natCast]
  constructor
  · intro hcompact
    by_contra hlost
    rw [not_or] at hlost
    obtain ⟨hle, hapart⟩ := wrapped_apart hpos hS32 hbelow hgap (Nat.pos_of_ne_zero hlost.1) hlost.2
    have hcode : T * (total % 2 ^ 32) % 2 ^ 256 / S ≤ cfg.bnProofOfWorkLimit.toNat :=
      hle.trans (min_le_left _ _)
    have hlimit := cfg.bnProofOfWorkLimit.isLt
    have hexact : min cfg.bnProofOfWorkLimit.toNat (T * total / S) < 2 ^ 256 :=
      lt_of_le_of_lt (min_le_left _ _) hlimit
    rw [min_eq_right hcode] at hcompact
    have hcode' := lt_of_le_of_lt hcode hlimit
    have hclose := getCompact_close hcompact (by
      rw [BitVec.le_def, BitVec.toNat_ofNat, BitVec.toNat_ofNat, Nat.mod_eq_of_lt hcode',
        Nat.mod_eq_of_lt hexact]
      exact hle)
    rw [BitVec.toNat_ofNat, BitVec.toNat_ofNat, Nat.mod_eq_of_lt hcode',
      Nat.mod_eq_of_lt hexact] at hclose
    omega
  · rintro (rfl | ⟨htotal, hprod⟩)
    · simp
    · rw [Nat.mod_eq_of_lt htotal, Nat.mod_eq_of_lt hprod]

theorem multiplier_of_nonneg {cfg : SysCfg} {chain : PBlockIndex} (pIndexPrev : CBlockIndex)
    (h : 0 ≤ totalSpacing cfg chain) :
    multiplier cfg chain pIndexPrev = some (UInt32.ofInt (totalSpacing cfg chain)) := by
  unfold multiplier
  rw [if_neg]
  omega

theorem multiplier_of_neg {cfg : SysCfg} {chain : PBlockIndex} (pIndexPrev : CBlockIndex)
    (h : totalSpacing cfg chain < 0) :
    multiplier cfg chain pIndexPrev = none ↔ lastSpacingHeight < pIndexPrev.nHeight := by
  unfold multiplier
  simp [h]

/-- `GetNextWorkRequired` on the parameters of the networks: it is exact where the sum fits 32 bits
and the product 256, or where the last target is zero; up to `lastSpacingHeight` a negative sum
becomes a factor. -/
theorem getNextWorkRequired_exact_iff (cfg : SysCfg) (hcfg : cfg.RetargetParams)
    (pIndexPrev pIndexPrevPrev p : CBlockIndex) (rest : PBlockIndex) :
    RetargetExact cfg (pIndexPrev :: pIndexPrevPrev :: p :: rest) pIndexPrev ↔
      if 0 ≤ totalSpacing cfg (pIndexPrev :: pIndexPrevPrev :: p :: rest) then
        (setCompact pIndexPrev.unBits).toNat = 0 ∨
          (totalSpacing cfg (pIndexPrev :: pIndexPrevPrev :: p :: rest) < 2 ^ 32 ∧
            (setCompact pIndexPrev.unBits).toNat *
              totalSpacing cfg (pIndexPrev :: pIndexPrevPrev :: p :: rest) < 2 ^ 256)
      else lastSpacingHeight < pIndexPrev.nHeight := by
  have hcode (h : 0 ≤ totalSpacing cfg (pIndexPrev :: pIndexPrevPrev :: p :: rest)) :
      getNextWorkRequired cfg (pIndexPrev :: pIndexPrevPrev :: p :: rest)
        = (retarget cfg (setCompact pIndexPrev.unBits)
            (UInt32.ofInt (totalSpacing cfg (pIndexPrev :: pIndexPrevPrev :: p :: rest)))).map
          getCompact := by
    unfold getNextWorkRequired
    dsimp only
    rw [multiplier_of_nonneg pIndexPrev h]
  generalize pIndexPrev :: pIndexPrevPrev :: p :: rest = chain at hcode ⊢
  by_cases h : 0 ≤ totalSpacing cfg chain
  · rw [if_pos h]
    have hnext := hcode h
    rw [hcfg.retarget_eq _ h, Option.map_some] at hnext
    obtain ⟨total, htotal⟩ := Int.eq_ofNat_of_zero_le h
    have hiff := hcfg.compact_eq_iff (setCompact pIndexPrev.unBits).toNat total
    rw [htotal, Int.toNat_natCast] at hnext
    rw [htotal]
    constructor
    · intro hexact
      have heq := hexact.exact h
      rw [hnext, htotal, Int.toNat_natCast] at heq
      exact_mod_cast hiff.mp (Option.some.inj heq)
    · intro hkept
      refine ⟨fun _ => ?_, fun hneg => absurd hneg (not_lt.mpr h)⟩
      rw [hnext, htotal, Int.toNat_natCast]
      exact congrArg some (hiff.mpr (by exact_mod_cast hkept))
  · rw [if_neg h]
    have hneg := not_le.mp h
    constructor
    · intro hexact
      exact (multiplier_of_neg pIndexPrev hneg).mp (hexact.negative hneg)
    · intro hheight
      exact ⟨fun hpos => absurd hpos h, fun _ => (multiplier_of_neg pIndexPrev hneg).mpr hheight⟩

/-! ## At the limit -/

def Sample.timedEntry (nHeight : ℤ) (unTime unBits : UInt32) : CBlockIndex :=
  { (default : CBlockIndex) with
    nHeight := nHeight
    unTime := unTime
    unBits := unBits }

/-- Three blocks a minute apart, the last one with the given target. -/
def Sample.minuteChain (unBits : UInt32) : PBlockIndex :=
  [timedEntry 100000 6120 unBits, timedEntry 99999 6060 unBits, timedEntry 99998 6000 unBits]

theorem sample_retargetParams : Sample.cfg.RetargetParams := by
  left
  decide

/-- Below 2^240 a chain that goes as planned keeps its target. -/
theorem getNextWorkRequired_planned :
    RetargetExact Sample.cfg (Sample.minuteChain 0x1e00ffff) (Sample.timedEntry 100000 6120 0x1e00ffff) := by
  apply (getNextWorkRequired_exact_iff Sample.cfg sample_retargetParams
    (Sample.timedEntry 100000 6120 0x1e00ffff) (Sample.timedEntry 99999 6060 0x1e00ffff)
    (Sample.timedEntry 99998 6000 0x1e00ffff) []).mpr
  decide +kernel

/-- At the limit the product has 257 bits, and a chain that goes as planned gets another target. -/
theorem getNextWorkRequired_wraps :
    setCompact 0x1f3fffff ≤ Sample.cfg.bnProofOfWorkLimit ∧
      totalSpacing Sample.cfg (Sample.minuteChain 0x1f3fffff) = plannedSpacing Sample.cfg ∧
      getNextWorkRequired Sample.cfg (Sample.minuteChain 0x1f3fffff) = some 0x1f1cc3fc ∧
      ¬ RetargetExact Sample.cfg (Sample.minuteChain 0x1f3fffff)
        (Sample.timedEntry 100000 6120 0x1f3fffff) := by
  refine ⟨by decide +kernel, by decide +kernel, by decide +kernel, fun hexact => ?_⟩
  have hgiven := hexact.exact (by decide +kernel)
  revert hgiven
  decide +kernel

end Dacrs
