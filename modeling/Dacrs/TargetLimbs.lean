import Dacrs.AcceptBlock
import Dacrs.BaseUintArith

/-!
# Targets and work on the limbs

`SetCompact`, `GetCompact`, `GetBlockProof` and `GetNextWorkRequired` as they go on the limbs of
`base_uint`.  They give what the numbers give: no assertion of `GetCompact` fails, and the only exception
is the division by zero that the numbers meet too.
-/

namespace Dacrs

open ArithUint256 (lt_bytes bytes_le_32 raised_lt lowered_lt)
open Limbs

namespace BaseUint

/-! ## The functions -/

/-- `SetCompact` -/
def setCompact (nCompact : UInt32) : BaseUint 8 :=
  let nSize := (nCompact >>> 24).toNat
  let nWord := nCompact &&& 0x007fffff
  if nSize ≤ 3 then ofUInt64 (nWord >>> UInt32.ofNat (8 * (3 - nSize))).toUInt64
  else (ofUInt64 nWord.toUInt64).shl (8 * (nSize - 3))

/-- The three digits and their number that `GetCompact` starts with. -/
def compactWord (a : BaseUint 8) : UInt32 × ℕ :=
  let nSize := (a.bits + 7) / 8
  if nSize ≤ 3 then ((a.getLow64 <<< UInt64.ofNat (8 * (3 - nSize))).toUInt32, nSize)
  else ((a.shr (8 * (nSize - 3))).getLow64.toUInt32, nSize)

/-- The digits move on where the highest bit would be read as the sign. -/
def offSign (word : UInt32 × ℕ) : UInt32 × ℕ :=
  if word.1 &&& 0x00800000 ≠ 0 then (word.1 >>> 8, word.2 + 1) else word

/-- `GetCompact`; `none` where an assertion fails. -/
def getCompact (a : BaseUint 8) (fNegative : Bool) : Option UInt32 :=
  let word := offSign a.compactWord
  if word.1 &&& ~~~0x007fffff ≠ 0 ∨ 256 ≤ word.2 then none
  else
    let nCompact := word.1 ||| UInt32.ofNat word.2 <<< 24
    some (nCompact ||| if fNegative ∧ nCompact &&& 0x007fffff ≠ 0 then 0x00800000 else 0)

/-- `GetBlockProof`; `none` is an exception. -/
def getBlockProof (unBits : UInt32) : Option (BaseUint 8) :=
  let cTarget := setCompact unBits
  if compactRefused unBits ∨ cTarget.equalTo 0 then some (ofUInt64 0)
  else (cTarget.not.divide (cTarget.add (ofUInt64 1))).map (·.add (ofUInt64 1))

/-- The limbs of a number of the configuration. -/
def ofUint256 (x : Uint256) : BaseUint 8 := ⟨(limbs 32 8 x.toNat).map UInt32.ofNat, by simp⟩

/-- `cNew *= total; cNew /= ...`, and the limit. -/
def retarget (cfg : SysCfg) (cNew : BaseUint 8) (total : UInt32) : Option (BaseUint 8) := do
  let cNew ← (cNew.mulWord total).divide (ofUInt64 (UInt64.ofInt (plannedSpacing cfg)))
  let limit := ofUint256 cfg.bnProofOfWorkLimit
  return if 0 < cNew.compareTo limit then limit else cNew

/-- `GetNextWorkRequired`; `none` is an exception or an assertion that fails. -/
def getNextWorkRequired (cfg : SysCfg) (chain : PBlockIndex) : Option UInt32 :=
  match chain with
  | pIndexPrev :: _ :: _ :: _ =>
    let cNew := setCompact pIndexPrev.unBits
    match multiplier cfg chain pIndexPrev with
    | none => cNew.getCompact false
    | some total => (retarget cfg cNew total).bind (·.getCompact false)
  | _ => (ofUint256 cfg.bnProofOfWorkLimit).getCompact false

/-! ## Numbers as limbs and back -/

variable {width : ℕ}

theorem toNat_ofUInt64 (b : UInt64) : (ofUInt64 b : BaseUint (width + 2)).toNat = b.toNat := by
  have hb := b.toNat_lt
  show value 32 (nats (b.toUInt32 :: (b >>> 32).toUInt32 :: List.replicate width 0)) = _
  have hrest : value 32 (nats (List.replicate width 0)) = 0 := toNat_zero
  rw [nats_cons, nats_cons, value_cons, value_cons, hrest, UInt64.toNat_toUInt32, UInt64.toNat_toUInt32, toNat_carry]
  omega

/-- There are two words at least. -/
theorem exists_words {pn : List UInt32} (h : pn.length = width + 2) : ∃ p q rest, pn = p :: q :: rest := by
  match pn, h with
  | p :: q :: rest, _ => exact ⟨p, q, rest, rfl⟩

theorem getLow64_toNat (a : BaseUint (width + 2)) : a.getLow64.toNat = a.toNat % 2 ^ 64 := by
  obtain ⟨pn, hpn⟩ := a
  obtain ⟨p, q, rest, rfl⟩ := exists_words hpn
  have hp := p.toNat_lt
  have hq := q.toNat_lt
  show (p.toUInt64 ||| q.toUInt64 <<< 32).toNat = value 32 (nats (p :: q :: rest)) % 2 ^ 64
  rw [UInt64.toNat_or, UInt64.toNat_shiftLeft, UInt32.toNat_toUInt64, UInt32.toNat_toUInt64]
  show p.toNat ||| q.toNat <<< 32 % 2 ^ 64 = _
  rw [Nat.shiftLeft_eq, Nat.mod_eq_of_lt (by omega), Nat.mul_comm, Nat.or_comm,
    ← Nat.two_pow_add_eq_or_of_lt hp, nats_cons, nats_cons, value_cons, value_cons]
  omega

theorem nats_limbs (width n : ℕ) : nats ((limbs 32 width n).map UInt32.ofNat) = limbs 32 width n := by
  induction width generalizing n with
  | zero => rfl
  | succ width ih =>
    rw [limbs, List.map_cons, nats_cons, ih, UInt32.toNat_ofNat', Nat.mod_mod]

theorem toNat_ofUint256 (x : Uint256) : (ofUint256 x).toNat = x.toNat := by
  have hlimbs : (2 ^ 32) ^ 8 = 2 ^ 256 := (pow_mul 2 32 8).symm
  show value 32 (nats ((limbs 32 8 x.toNat).map UInt32.ofNat)) = _
  rw [nats_limbs, value_limbs, hlimbs, Nat.mod_eq_of_lt x.isLt]

/-- The bit vector of 8 limbs. -/
def uint256 (a : BaseUint 8) : Uint256 := a.toBitVec

@[simp] theorem toNat_uint256 (a : BaseUint 8) : a.uint256.toNat = a.toNat := a.toNat_toBitVec

theorem uint256_ofUint256 (x : Uint256) : (ofUint256 x).uint256 = x := by
  apply BitVec.eq_of_toNat_eq
  rw [toNat_uint256, toNat_ofUint256]

theorem equalTo_iff (a : BaseUint (width + 2)) (b : UInt64) : a.equalTo b ↔ a.toNat = b.toNat := by
  have hlow : lowWord b = b.toUInt32 := by
    rw [← UInt32.toNat_inj, toNat_lowWord, UInt64.toNat_toUInt32]
  have hshape : a.equalTo b ↔ a = ofUInt64 b := by
    obtain ⟨pn, hpn⟩ := a
    obtain ⟨p, q, rest, rfl⟩ := exists_words hpn
    have hrest : rest = List.replicate width 0 ↔ ∀ r ∈ rest, r = 0 := by
      rw [List.eq_replicate_iff]
      exact and_iff_right (by simpa using hpn)
    rw [BaseUint.ext_iff, ofUInt64, equalTo, hlow]
    simp only [Bool.and_eq_true, decide_eq_true_eq, List.all_eq_true, beq_iff_eq, List.cons.injEq,
      hrest, List.drop_succ_cons, List.drop_zero, List.getD_cons_zero, List.getD_cons_succ]
    tauto
  rw [hshape, ← toBitVec_inj, ← BitVec.toNat_inj, toNat_toBitVec, toNat_toBitVec, toNat_ofUInt64]

/-! ## The compact form -/

theorem pow_256 (k : ℕ) : (256 : ℕ) ^ k = 2 ^ (8 * k) := by
  rw [pow_mul]
  norm_num

theorem toNat_shiftRight_word (p : UInt32) {s : ℕ} (hs : s < 32) :
    (p >>> UInt32.ofNat s).toNat = p.toNat / 2 ^ s := by
  rw [UInt32.toNat_shiftRight, UInt32.toNat_ofNat', Nat.mod_eq_of_lt (by omega : s < 2 ^ 32), Nat.mod_eq_of_lt hs,
    Nat.shiftRight_eq_div_pow]

theorem toNat_and_digits (p : UInt32) : (p &&& 0x007fffff).toNat = p.toNat % 2 ^ 23 := by
  rw [UInt32.toNat_and]
  exact Nat.and_two_pow_sub_one_eq_mod p.toNat 23

theorem setCompact_uint256 (nCompact : UInt32) : (setCompact nCompact).uint256 = Dacrs.setCompact nCompact := by
  have hsize : (nCompact >>> 24).toNat = nCompact.toNat / 2 ^ 24 := toNat_shiftRight_word nCompact (by decide)
  have hword := toNat_and_digits nCompact
  apply BitVec.eq_of_toNat_eq
  rw [toNat_uint256, setCompact, Dacrs.setCompact, BitVec.toNat_ofNat, hsize]
  split
  · next hle =>
    have hdiv : nCompact.toNat % 2 ^ 23 / 256 ^ (3 - nCompact.toNat / 2 ^ 24) ≤ nCompact.toNat % 2 ^ 23 :=
      Nat.div_le_self _ _
    have hlt : nCompact.toNat % 2 ^ 23 < 2 ^ 23 := Nat.mod_lt _ (by decide)
    rw [toNat_ofUInt64, UInt32.toNat_toUInt64, toNat_shiftRight_word _ (by omega), hword, ← pow_256,
      Nat.mod_eq_of_lt (lt_of_le_of_lt hdiv (lt_trans hlt (by norm_num)))]
  · rw [toNat_shl, toNat_ofUInt64, UInt32.toNat_toUInt64, hword, ← pow_256]

/-- The three digits, on the number. -/
def digits (n size : ℕ) : ℕ := if size ≤ 3 then n * 256 ^ (3 - size) else n / 256 ^ (size - 3)

theorem digits_lt {n size : ℕ} (h : n < 256 ^ size) : digits n size < 2 ^ 24 := by
  rw [digits]
  split
  · next hle => exact raised_lt hle h
  · next hlt => exact lowered_lt (not_le.mp hlt) h

theorem compactWord_eq (a : BaseUint 8) : a.compactWord.2 = (a.toNat.size + 7) / 8 ∧
    a.compactWord.1.toNat = digits a.toNat ((a.toNat.size + 7) / 8) := by
  have hlt := lt_bytes a.toNat
  have hdigits := digits_lt hlt
  rw [compactWord, bits_eq]
  rw [digits] at hdigits ⊢
  generalize (a.toNat.size + 7) / 8 = size at *
  split
  · next hle =>
    rw [if_pos hle] at hdigits
    have hsmall : a.toNat < 2 ^ 64 := by
      calc a.toNat < 256 ^ size := hlt
        _ ≤ 256 ^ 3 := Nat.pow_le_pow_right (by decide) hle
        _ ≤ 2 ^ 64 := by norm_num
    have hamount : (UInt64.ofNat (8 * (3 - size))).toNat % 64 = 8 * (3 - size) := by
      rw [UInt64.toNat_ofNat', Nat.mod_eq_of_lt (by omega : 8 * (3 - size) < 2 ^ 64), Nat.mod_eq_of_lt (by omega)]
    refine ⟨rfl, ?_⟩
    rw [UInt64.toNat_toUInt32, UInt64.toNat_shiftLeft, hamount, getLow64_toNat, Nat.mod_eq_of_lt hsmall, Nat.shiftLeft_eq,
      ← pow_256, Nat.mod_eq_of_lt (by omega : a.toNat * 256 ^ (3 - size) < 2 ^ 64), Nat.mod_eq_of_lt (by omega)]
  · next hle =>
    rw [if_neg hle] at hdigits
    refine ⟨rfl, ?_⟩
    rw [UInt64.toNat_toUInt32, getLow64_toNat, toNat_shr, ← pow_256,
      Nat.mod_eq_of_lt (by omega : a.toNat / 256 ^ (size - 3) < 2 ^ 64), Nat.mod_eq_of_lt (by omega)]

/-- The bit that is read as the sign. -/
theorem signBit_iff (p : UInt32) : p &&& 0x00800000 ≠ 0 ↔ p.toNat / 2 ^ 23 % 2 = 1 := by
  have hzero : p.toNat &&& 2 ^ 23 = 0 ↔ p.toNat.testBit 23 = false := and_two_pow_eq_zero_iff
  rw [Ne, ← UInt32.toNat_inj, UInt32.toNat_and]
  show ¬ p.toNat &&& 2 ^ 23 = 0 ↔ _
  rw [hzero, Bool.not_eq_false, Nat.testBit_eq_decide_div_mod_eq, decide_eq_true_eq]

theorem digits_only {p : UInt32} (h : p.toNat < 2 ^ 23) : p &&& ~~~0x007fffff = 0 := by
  have hself : p &&& 0x007fffff = p := by
    rw [← UInt32.toNat_inj, toNat_and_digits, Nat.mod_eq_of_lt h]
  rw [← hself, UInt32.and_assoc]
  exact UInt32.and_zero

/-- The digits and their number in one word. -/
theorem toNat_joined {p : UInt32} {size : ℕ} (hp : p.toNat < 2 ^ 24) (hsize : size < 256) :
    (p ||| UInt32.ofNat size <<< 24).toNat = p.toNat + size * 2 ^ 24 := by
  rw [UInt32.toNat_or, UInt32.toNat_shiftLeft, UInt32.toNat_ofNat', Nat.mod_eq_of_lt (by omega : size < 2 ^ 32)]
  show p.toNat ||| size <<< 24 % 2 ^ 32 = _
  rw [Nat.shiftLeft_eq, Nat.mod_eq_of_lt (by omega), Nat.mul_comm, Nat.or_comm, ← Nat.two_pow_add_eq_or_of_lt hp,
    Nat.add_comm]

theorem joined_eq {p : UInt32} {size : ℕ} (hp : p.toNat < 2 ^ 23) (hsize : size < 256) :
    p ||| UInt32.ofNat size <<< 24 = UInt32.ofNat (p.toNat + size * 2 ^ 24) := by
  rw [← UInt32.toNat_inj, toNat_joined (by omega) hsize, UInt32.toNat_ofNat', Nat.mod_eq_of_lt (by omega)]

/-- The assertions of `GetCompact` hold. -/
theorem getCompact_uint256 (a : BaseUint 8) : a.getCompact false = some (ArithUint256.getCompact a.uint256) := by
  have hlt := lt_bytes a.toNat
  have h32 : (a.toNat.size + 7) / 8 ≤ 32 := by
    rw [← toNat_uint256 a]
    exact bytes_le_32 a.uint256
  obtain ⟨hsize, hword⟩ := a.compactWord_eq
  have hdigits := digits_lt hlt
  rw [← hword] at hdigits
  have hspec : ArithUint256.getCompact a.uint256
      = if a.compactWord.1.toNat / 2 ^ 23 % 2 = 1
        then UInt32.ofNat (a.compactWord.1.toNat / 256 + (a.compactWord.2 + 1) * 2 ^ 24)
        else UInt32.ofNat (a.compactWord.1.toNat + a.compactWord.2 * 2 ^ 24) := by
    rw [ArithUint256.getCompact, hword, hsize, digits, toNat_uint256]
  rw [hspec, getCompact, offSign]
  rw [← hsize] at h32
  by_cases hbit : a.compactWord.1.toNat / 2 ^ 23 % 2 = 1
  · have hmoved : (a.compactWord.1 >>> 8).toNat = a.compactWord.1.toNat / 256 :=
      toNat_shiftRight_word _ (by decide)
    have hdigit : (a.compactWord.1 >>> 8).toNat < 2 ^ 23 := by omega
    rw [if_pos ((signBit_iff _).mpr hbit), if_pos hbit]
    simp only [digits_only hdigit, joined_eq hdigit (by omega : a.compactWord.2 + 1 < 256), hmoved]
    simp
    omega
  · have hdigit : a.compactWord.1.toNat < 2 ^ 23 := by omega
    rw [if_neg (mt (signBit_iff _).mp hbit), if_neg hbit]
    simp only [digits_only hdigit, joined_eq hdigit (by omega : a.compactWord.2 < 256)]
    simp
    omega

/-! ## Targets and work -/

/-- A target is never `2^256 - 1`: its successor is no divisor that is zero. -/
theorem setCompact_succ_lt (nCompact : UInt32) : (Dacrs.setCompact nCompact).toNat + 1 < 2 ^ 256 := by
  have hword : nCompact.toNat % 2 ^ 23 < 2 ^ 23 := Nat.mod_lt _ (by decide)
  rw [Dacrs.setCompact, BitVec.toNat_ofNat]
  split
  · have hdiv : nCompact.toNat % 2 ^ 23 / 256 ^ (3 - nCompact.toNat / 2 ^ 24) ≤ nCompact.toNat % 2 ^ 23 :=
      Nat.div_le_self _ _
    rw [Nat.mod_eq_of_lt (by omega)]
    omega
  · next hle =>
    obtain ⟨k, hk⟩ : ∃ k, nCompact.toNat / 2 ^ 24 - 3 = k + 1 := ⟨nCompact.toNat / 2 ^ 24 - 4, by omega⟩
    rw [hk, pow_succ 256 k, ← Nat.mul_assoc]
    omega

theorem uint256_ofUInt64_one : (ofUInt64 1 : BaseUint 8).uint256 = 1 := by
  apply BitVec.eq_of_toNat_eq
  rw [toNat_uint256, toNat_ofUInt64]
  rfl

/-- `GetBlockProof` meets no exception. -/
theorem getBlockProof_uint256 (unBits : UInt32) :
    (getBlockProof unBits).map uint256 = some (Dacrs.getBlockProof unBits) := by
  have htarget := setCompact_uint256 unBits
  have hnat : (setCompact unBits).toNat = (Dacrs.setCompact unBits).toNat := by rw [← htarget, toNat_uint256]
  have hzero : (setCompact unBits).equalTo 0 ↔ Dacrs.setCompact unBits = 0 := by
    rw [equalTo_iff, hnat, ← BitVec.toNat_inj]
    rfl
  rw [getBlockProof, Dacrs.getBlockProof]
  have hrefused := or_congr_right hzero (a := compactRefused unBits = true)
  by_cases h : compactRefused unBits ∨ Dacrs.setCompact unBits = 0
  · rw [if_pos (hrefused.mpr h), if_pos h, Option.map_some]
    congr 1
  · rw [if_neg (mt hrefused.mp h), if_neg h]
    have hone : (ofUInt64 1 : BaseUint 8).toNat = 1 := toNat_ofUInt64 1
    have hsucc := setCompact_succ_lt unBits
    have hdivisor : ((setCompact unBits).add (ofUInt64 1)).toNat = (Dacrs.setCompact unBits + 1).toNat := by
      rw [toNat_add, hnat, hone, BitVec.toNat_add]
      rfl
    have hpos : 0 < (Dacrs.setCompact unBits + 1).toNat := by
      rw [← hdivisor, toNat_add, hnat, hone, Nat.mod_eq_of_lt hsucc]
      omega
    have hnum : (setCompact unBits).not.toNat = (~~~Dacrs.setCompact unBits).toNat := by
      rw [← htarget, ← toNat_uint256]
      exact congrArg BitVec.toNat (toBitVec_not _)
    have hquotient := divide_toNat (setCompact unBits).not ((setCompact unBits).add (ofUInt64 1))
    rw [hdivisor, if_neg hpos.ne', hnum] at hquotient
    obtain ⟨quotient, hq, hqnat⟩ := Option.map_eq_some_iff.mp hquotient
    rw [hq, ArithUint256.divide_eq hpos, Option.map_some, Option.map_some, Option.getD_some, ← hqnat]
    congr 1
    show (quotient.add (ofUInt64 1)).toBitVec = _
    rw [toBitVec_add]
    exact congrArg (quotient.toBitVec + ·) uint256_ofUInt64_one

theorem retarget_uint256 (cfg : SysCfg) (cNew : BaseUint 8) (total : UInt32) :
    (retarget cfg cNew total).map uint256 = Dacrs.retarget cfg cNew.uint256 total := by
  have hproduct : (cNew.mulWord total).toNat = (ArithUint256.mulUInt32 cNew.uint256 total).toNat := by
    rw [toNat_mulWord, ArithUint256.mulUInt32_toNat, toNat_uint256]
  have hquotient := divide_toNat (cNew.mulWord total) (ofUInt64 (UInt64.ofInt (plannedSpacing cfg)))
  rw [toNat_ofUInt64, hproduct] at hquotient
  rw [retarget, Dacrs.retarget]
  by_cases hzero : (UInt64.ofInt (plannedSpacing cfg)).toNat = 0
  · rw [if_pos hzero, Option.map_eq_none_iff] at hquotient
    rw [hquotient, hzero, ArithUint256.divide, if_pos Nat.size_zero]
    rfl
  · rw [if_neg hzero] at hquotient
    obtain ⟨quotient, hq, hqnat⟩ := Option.map_eq_some_iff.mp hquotient
    rw [hq, ArithUint256.divide_eq (Nat.pos_of_ne_zero hzero), ← hqnat]
    show some (uint256 (if _ then _ else _)) = some (if _ then _ else _)
    have hword : BitVec.ofNat 256 quotient.toNat = quotient.uint256 := rfl
    have habove : 0 < quotient.compareTo (ofUint256 cfg.bnProofOfWorkLimit) ↔
        cfg.bnProofOfWorkLimit < quotient.uint256 := by
      rw [compareTo_pos, toNat_ofUint256, BitVec.lt_def, toNat_uint256]
    rw [hword, apply_ite uint256, uint256_ofUint256]
    simp only [habove]

/-- `GetNextWorkRequired` on the limbs is `GetNextWorkRequired` on the numbers. -/
theorem getNextWorkRequired_eq (cfg : SysCfg) (chain : PBlockIndex) :
    getNextWorkRequired cfg chain = Dacrs.getNextWorkRequired cfg chain := by
  match chain with
  | [] | [_] | [_, _] =>
    show (ofUint256 cfg.bnProofOfWorkLimit).getCompact false = some _
    rw [getCompact_uint256, uint256_ofUint256]
  | pIndexPrev :: q :: r :: rest =>
    rw [getNextWorkRequired, Dacrs.getNextWorkRequired]
    cases multiplier cfg (pIndexPrev :: q :: r :: rest) pIndexPrev with
    | none =>
      show (setCompact pIndexPrev.unBits).getCompact false = some _
      rw [getCompact_uint256, setCompact_uint256]
    | some total =>
      show (retarget cfg (setCompact pIndexPrev.unBits) total).bind _ = (Dacrs.retarget cfg _ total).map _
      rw [← setCompact_uint256, ← retarget_uint256, Option.map_map]
      cases retarget cfg (setCompact pIndexPrev.unBits) total with
      | none => rfl
      | some cNew => exact getCompact_uint256 cNew

end BaseUint

end Dacrs
