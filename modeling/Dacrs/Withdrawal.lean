import Dacrs.CoinDay

/-!
# What a withdrawal leaves of the coin day

`OperateAccount` settles the coin day, changes the balance, and on a withdrawal scales the coin day by
what is left of the balance.  `operateAccountMut` is the function with the account it leaves behind where
it returns false, and with the division it makes.  `withdrawal_exact_iff` compares it with exact integers,
`capped_operateAccount_iff` says when the coin day stays within the cap.
-/

namespace Dacrs

namespace CAccount

variable (cfg : SysCfg)

/-! ## The function in the source's widths -/

/-- The coin day a withdrawal leaves, in `arith_uint256` from the fork on; `none` is a division by zero.
The assertion compares an unsigned difference with 0, so it holds of every balance. -/
def remainCoinDay256 (coinDay values value : UInt64) (nCurHeight : ℤ) : Option UInt64 :=
  if values = 0 then none
  else if nCurHeight < blockRemainCoinDayHeight then some (coinDay - value / values * coinDay)
  else
    let left := (values.toNat + (2 ^ 256 - value.toNat)) % 2 ^ 256
    some (UInt64.ofNat (coinDay.toNat * left % 2 ^ 256 / values.toNat))

/-- `OperateAccount` with what it does to the account when it returns false; `none` is a division by
zero. -/
def operateAccountMut (type : EmOperType) (value : UInt64) (nCurHeight : ℤ) (a : CAccount) :
    Option (Bool × CAccount) :=
  if !isMoneyOverflow cfg value then some (false, a)
  else
    let a := a.upDateCoinDay cfg nCurHeight
    if a.cKeyID = 0 then some (false, a)
    else if value = 0 then some (true, a)
    else match type with
      | .addFree =>
        let a := { a with ullValues := a.ullValues + value }
        some (isMoneyOverflow cfg a.ullValues, a)
      | .minusFree =>
        if value > a.ullValues then some (false, a)
        else
          (remainCoinDay256 a.ullCoinDay a.ullValues value nCurHeight).map fun remain =>
            let floor := a.ullValues * UInt64.ofInt cfg.nIntervalPos
            let remain := if a.ullCoinDay > floor ∧ remain < floor then floor else remain
            (true, { a with ullCoinDay := remain, ullValues := a.ullValues - value })
      | .null => some (false, a)

/-- A balance that covers the withdrawal is no zero, and nothing wraps in 256 bits. -/
theorem remainCoinDay256_eq {coinDay values value : UInt64} {h : ℤ} (h0 : value ≠ 0)
    (hle : value ≤ values) :
    remainCoinDay256 coinDay values value h = some (remainCoinDay coinDay values value h) := by
  have hle' := UInt64.le_iff_toNat_le.mp hle
  have hpos : 0 < value.toNat := UInt64.lt_iff_toNat_lt.mp (UInt64.pos_iff_ne_zero.mpr h0)
  have hne : values ≠ 0 := by
    rintro rfl
    simp at hle'
    omega
  unfold remainCoinDay256 remainCoinDay
  rw [if_neg hne]
  split
  · rfl
  · have hv := values.toNat_lt
    have hc := coinDay.toNat_lt
    have hleft : (values.toNat + (2 ^ 256 - value.toNat)) % 2 ^ 256 = values.toNat - value.toNat := by
      omega
    have hprod : coinDay.toNat * (values.toNat - value.toNat) < 2 ^ 256 := by
      calc coinDay.toNat * (values.toNat - value.toNat)
          ≤ 2 ^ 64 * 2 ^ 64 := Nat.mul_le_mul hc.le (by omega)
        _ < 2 ^ 256 := by norm_num
    dsimp only
    rw [hleft, Nat.mod_eq_of_lt hprod]

/-- The account behind a call that returns false. -/
def leftBehind (type : EmOperType) (value : UInt64) (h : ℤ) (a : CAccount) : CAccount :=
  if !isMoneyOverflow cfg value then a
  else if type = .addFree ∧ a.cKeyID ≠ 0 then
    { a.upDateCoinDay cfg h with ullValues := a.ullValues + value }
  else a.upDateCoinDay cfg h

/-- No call divides by zero, and a call returns true where `operateAccount` has a result. -/
theorem operateAccountMut_eq (type : EmOperType) (value : UInt64) (h : ℤ) (a : CAccount) :
    a.operateAccountMut cfg type value h
      = some ((a.operateAccount cfg type value h).isSome,
          (a.operateAccount cfg type value h).getD (a.leftBehind cfg type value h)) := by
  have hkey := (upDateCoinDay_sameIdentity cfg a h).cKeyID
  have hval := upDateCoinDay_ullValues cfg a h
  unfold operateAccountMut operateAccount leftBehind
  by_cases hr : isMoneyOverflow cfg value = true
  · simp only [hr, Bool.not_true, Bool.false_eq_true, if_false]
    rw [← hkey, ← hval]
    generalize a.upDateCoinDay cfg h = s
    by_cases hk : s.cKeyID = 0
    · rw [if_pos hk, if_pos hk, if_neg (fun hadd => hadd.2 hk)]
      rfl
    · rw [if_neg hk, if_neg hk]
      by_cases h0 : value = 0
      · rw [if_pos h0, if_pos h0]
        rfl
      · rw [if_neg h0, if_neg h0]
        cases type with
        | addFree =>
          have hk' : s.cKeyID ≠ 0#160 := hk
          by_cases hs : isMoneyOverflow cfg (s.ullValues + value) = true
          · simp [hs]
          · simp [hs, hk']
        | minusFree =>
          by_cases hle : value > s.ullValues
          · simp [hle]
          · simp [hle, remainCoinDay256_eq h0 (UInt64.not_lt.mp hle)]
        | null =>
          simp
  · simp [hr]

/-! ## What is left, in integers -/

/-- What is left of a coin day when `x` of `v` goes.  Before the fork the quotient `x / v` is that of
integers, so nothing goes before the whole balance does. -/
def remainPart (h coinDay v x : ℤ) : ℤ :=
  if h < blockRemainCoinDayHeight then if x < v then coinDay else 0 else coinDay * (v - x) / v

/-- What was above the floor does not go below it. -/
def raised (floor coinDay remain : ℤ) : ℤ := if floor < coinDay ∧ remain < floor then floor else remain

theorem remainPart_le {h coinDay v x : ℤ} (hc : 0 ≤ coinDay) (hx : 0 < x) (hxv : x ≤ v) :
    remainPart h coinDay v x ≤ coinDay := by
  unfold remainPart
  split
  · split
    · exact le_refl coinDay
    · exact hc
  · apply Int.ediv_le_of_le_mul (by omega)
    exact mul_le_mul_of_nonneg_left (by omega) hc

/-- Who takes more keeps no more. -/
theorem remainPart_antitone {h coinDay v x y : ℤ} (hc : 0 ≤ coinDay) (hx : 0 < x) (hxy : x ≤ y)
    (hyv : y ≤ v) : remainPart h coinDay v y ≤ remainPart h coinDay v x := by
  unfold remainPart
  split
  · by_cases hlt : y < v
    · rw [if_pos hlt, if_pos (by omega)]
    · rw [if_neg hlt]
      split
      · exact hc
      · exact le_refl 0
  · apply Int.ediv_le_ediv (by omega)
    exact mul_le_mul_of_nonneg_left (by omega) hc

theorem raised_le {floor coinDay remain : ℤ} (h : remain ≤ coinDay) : raised floor coinDay remain ≤ coinDay := by
  unfold raised
  split
  · omega
  · exact h

theorem raised_mono {floor coinDay r s : ℤ} (h : r ≤ s) :
    raised floor coinDay r ≤ raised floor coinDay s := by
  unfold raised
  split
  · split
    · exact le_refl floor
    · omega
  · split
    · omega
    · exact h

/-- When a wrapped floor raises to what the floor itself raises to. -/
theorem raised_wrapped_iff {floor coinDay remain : ℤ} (hf : 0 ≤ floor) (hc : coinDay < 2 ^ 64) :
    raised (floor % 2 ^ 64) coinDay remain = raised floor coinDay remain
      ↔ floor < 2 ^ 64 ∨ coinDay ≤ floor % 2 ^ 64 ∨ floor % 2 ^ 64 ≤ remain := by
  unfold raised
  by_cases hfit : floor < 2 ^ 64
  · rw [Int.emod_eq_of_lt hf hfit]
    exact ⟨fun _ => .inl hfit, fun _ => rfl⟩
  · rw [if_neg (show ¬ (floor < coinDay ∧ remain < floor) by omega)]
    split
    · omega
    · omega

theorem remainCoinDay_toNat {coinDay values value : UInt64} {h : ℤ} (h0 : value ≠ 0) (hle : value ≤ values) :
    ((remainCoinDay coinDay values value h).toNat : ℤ)
      = remainPart h coinDay.toNat values.toNat value.toNat := by
  have hle' := UInt64.le_iff_toNat_le.mp hle
  have hpos : 0 < value.toNat := UInt64.lt_iff_toNat_lt.mp (UInt64.pos_iff_ne_zero.mpr h0)
  unfold remainCoinDay remainPart
  split
  · by_cases hlt : value.toNat < values.toNat
    · have hdiv : value / values = 0 := by
        apply UInt64.toNat_inj.mp
        rw [UInt64.toNat_div, Nat.div_eq_of_lt hlt]
        rfl
      rw [hdiv, if_pos (by omega)]
      simp
    · have heq : value = values := UInt64.toNat_inj.mp (by omega)
      have hdiv : value / values = 1 := by
        apply UInt64.toNat_inj.mp
        rw [UInt64.toNat_div, heq, Nat.div_self (by omega)]
        rfl
      rw [hdiv, if_neg (by omega)]
      simp
  · have hfit : coinDay.toNat * (values.toNat - value.toNat) / values.toNat ≤ coinDay.toNat := by
      apply Nat.div_le_of_le_mul
      rw [mul_comm values.toNat]
      exact Nat.mul_le_mul_left _ (by omega)
    have hc := coinDay.toNat_lt
    rw [UInt64.toNat_ofNat', Nat.mod_eq_of_lt (by omega)]
    push_cast [hle']
    rfl

theorem operateAccountMut_true_iff {type : EmOperType} {value : UInt64} {h : ℤ} {a b : CAccount} :
    a.operateAccountMut cfg type value h = some (true, b) ↔ a.operateAccount cfg type value h = some b := by
  rw [operateAccountMut_eq]
  cases hop : a.operateAccount cfg type value h with
  | none => simp
  | some c => simp

/-- The coin day a withdrawal leaves in 64 bits: only the floor can be a wrapped product. -/
theorem operateAccount_minusFree {x : UInt64} {h : ℤ} {a : CAccount} (hr : isMoneyOverflow cfg x = true)
    (hk : a.cKeyID ≠ 0) (h0 : x ≠ 0) (hle : x ≤ a.ullValues) :
    ∃ b, a.operateAccount cfg .minusFree x h = some b ∧ b.ullValues = a.ullValues - x ∧
      b.nHeight = (a.upDateCoinDay cfg h).nHeight ∧ (b.ullCoinDay.toNat : ℤ) = raised (a.minerCoinDay cfg % 2 ^ 64) (a.settledCoinDay cfg h)
        (remainPart h (a.settledCoinDay cfg h) a.ullValues.toNat x.toNat) := by
  have hkey := (upDateCoinDay_sameIdentity cfg a h).cKeyID
  have hval := upDateCoinDay_ullValues cfg a h
  have hset := upDateCoinDay_settled cfg a h
  have hfloor := mul_ofInt_toNat a.ullValues cfg.nIntervalPos
  have hremain : ((remainCoinDay (a.upDateCoinDay cfg h).ullCoinDay a.ullValues x h).toNat : ℤ)
      = remainPart h (a.upDateCoinDay cfg h).ullCoinDay.toNat a.ullValues.toNat x.toNat :=
    remainCoinDay_toNat h0 hle
  unfold operateAccount
  rw [hr, Bool.not_true, if_neg (by simp), if_neg (hkey ▸ hk), if_neg h0]
  dsimp only
  rw [hval, if_neg (UInt64.not_lt.mpr hle)]
  refine ⟨_, rfl, rfl, rfl, ?_⟩
  unfold raised minerCoinDay
  dsimp only
  rw [← hfloor, ← hset, ← hremain]
  split
  · next hup =>
    rw [if_pos ⟨by exact_mod_cast UInt64.lt_iff_toNat_lt.mp hup.1,
      by exact_mod_cast UInt64.lt_iff_toNat_lt.mp hup.2⟩]
  · next hup =>
    rw [if_neg]
    rintro ⟨hlt, hgt⟩
    exact hup ⟨UInt64.lt_iff_toNat_lt.mpr (by exact_mod_cast hlt),
      UInt64.lt_iff_toNat_lt.mpr (by exact_mod_cast hgt)⟩

/-- A withdrawal goes through where it moves an amount there can be from a balance that has it, on an
account with a key. -/
theorem operateAccount_minusFree_isSome {x : UInt64} {h : ℤ} {a : CAccount} (h0 : x ≠ 0) :
    (a.operateAccount cfg .minusFree x h).isSome = true
      ↔ isMoneyOverflow cfg x = true ∧ a.cKeyID ≠ 0 ∧ x ≤ a.ullValues := by
  constructor
  · intro hsome
    obtain ⟨b, hb⟩ := Option.isSome_iff_exists.mp hsome
    obtain ⟨hr, hk, -, ⟨hz, -⟩ | ⟨htype, -⟩ | ⟨-, hle, -⟩⟩ := operateAccount_cases cfg hb
    · exact absurd hz h0
    · cases htype
    · exact ⟨hr, hk, hle⟩
  · rintro ⟨hr, hk, hle⟩
    obtain ⟨b, hb, -⟩ := operateAccount_minusFree cfg (h := h) hr hk h0 hle
    rw [hb]
    rfl

/-- An amount up to a balance there can be is an amount there can be. -/
theorem isMoneyOverflow_of_le {x v : UInt64} (hv : (v.toNat : ℤ) ≤ cfg.getMaxMoney) (hle : x ≤ v) :
    isMoneyOverflow cfg x = true := by
  have hmax : cfg.getMaxMoney < 2 ^ 63 := by
    unfold SysCfg.getMaxMoney coin
    split
    · norm_num
    · norm_num
  have hle' := UInt64.le_iff_toNat_le.mp hle
  have hint : x.toInt64.toInt = x.toNat := by
    have hbits : x.toInt64.toInt = x.toBitVec.toInt := rfl
    have hnat : x.toBitVec.toNat = x.toNat := rfl
    rw [hbits, BitVec.toInt_eq_toNat_cond, hnat, if_pos (by omega)]
  unfold isMoneyOverflow SysCfg.moneyRange
  rw [hint, Bool.and_eq_true, decide_eq_true_eq, decide_eq_true_eq]
  exact ⟨by omega, by omega⟩

/-- The coin day that should be left, without a width. -/
def exactRemain (a : CAccount) (h x : ℤ) : ℤ :=
  raised (a.minerCoinDay cfg) (a.settledCoinDay cfg h)
    (a.settledCoinDay cfg h * (a.ullValues.toNat - x) / a.ullValues.toNat)

/-- The floor does not wrap, or what is left of it raises nothing. -/
def FloorFits (a : CAccount) (h x : ℤ) : Prop :=
  a.minerCoinDay cfg < 2 ^ 64 ∨ a.settledCoinDay cfg h ≤ a.minerCoinDay cfg % 2 ^ 64 ∨
    a.minerCoinDay cfg % 2 ^ 64
      ≤ a.settledCoinDay cfg h * (a.ullValues.toNat - x) / a.ullValues.toNat

theorem withdrawal_exact {a : CAccount} {h : ℤ} {x : UInt64} (hfork : blockRemainCoinDayHeight ≤ h)
    (hr : isMoneyOverflow cfg x = true) (hcap : a.settledCoinDay cfg h ≤ a.maxCoinDay cfg) (h0 : x ≠ 0)
    (hle : x ≤ a.ullValues) :
    (∃ b, a.operateAccountMut cfg .minusFree x h = some (true, b) ∧
        b.ullValues.toNat = a.ullValues.toNat - x.toNat ∧
        (b.ullCoinDay.toNat : ℤ) = a.exactRemain cfg h x.toNat)
      ↔ a.cKeyID ≠ 0 ∧ a.FloorFits cfg h x.toNat := by
  have hfloor : 0 ≤ a.minerCoinDay cfg := by
    have hmax : a.maxCoinDay cfg = a.minerCoinDay cfg * 30 := (mul_assoc _ _ _).symm
    have hnonneg := a.settledCoinDay_nonneg cfg h
    omega
  have hwrapped := @raised_wrapped_iff _ _ (remainPart h (a.settledCoinDay cfg h) a.ullValues.toNat x.toNat)
    hfloor (a.settledCoinDay_lt cfg h)
  have hpart : remainPart h (a.settledCoinDay cfg h) a.ullValues.toNat x.toNat
      = a.settledCoinDay cfg h * (a.ullValues.toNat - x.toNat) / a.ullValues.toNat := if_neg (by omega)
  constructor
  · rintro ⟨b, hb, -, hcoin⟩
    have hb' := (operateAccountMut_true_iff cfg).mp hb
    obtain ⟨-, hk, -⟩ := operateAccount_cases cfg hb'
    obtain ⟨c, hc, -, -, hleft⟩ := operateAccount_minusFree cfg (h := h) hr hk h0 hle
    obtain rfl : b = c := Option.some.inj (hb'.symm.trans hc)
    refine ⟨hk, ?_⟩
    rw [hcoin, exactRemain, ← hpart] at hleft
    unfold FloorFits
    rw [← hpart]
    exact hwrapped.mp hleft.symm
  · rintro ⟨hk, hfits⟩
    obtain ⟨b, hb, hval, -, hleft⟩ := operateAccount_minusFree cfg (h := h) hr hk h0 hle
    refine ⟨b, (operateAccountMut_true_iff cfg).mpr hb, ?_, ?_⟩
    · rw [hval, UInt64.toNat_sub_of_le _ _ hle]
    · unfold FloorFits at hfits
      rw [← hpart] at hfits
      rw [hleft, exactRemain, ← hpart]
      exact hwrapped.mpr hfits

/-- What a withdrawal that went through has left, and from what. -/
theorem withdrawal_left {a b : CAccount} {h : ℤ} {x : UInt64} (h0 : x ≠ 0)
    (hb : a.operateAccount cfg .minusFree x h = some b) :
    x ≤ a.ullValues ∧ b.nHeight = (a.upDateCoinDay cfg h).nHeight ∧ (b.ullCoinDay.toNat : ℤ) = raised (a.minerCoinDay cfg % 2 ^ 64) (a.settledCoinDay cfg h)
      (remainPart h (a.settledCoinDay cfg h) a.ullValues.toNat x.toNat) := by
  obtain ⟨hr, hk, hle⟩ := (operateAccount_minusFree_isSome cfg (h := h) (a := a) h0).mp (by rw [hb]; rfl)
  obtain ⟨c, hc, -, hheight, hleft⟩ := operateAccount_minusFree cfg (h := h) hr hk h0 hle
  obtain rfl : b = c := Option.some.inj (hb.symm.trans hc)
  exact ⟨hle, hheight, hleft⟩

theorem withdrawal_kept_le {a b : CAccount} {h : ℤ} {x : UInt64} (h0 : x ≠ 0)
    (hb : a.operateAccount cfg .minusFree x h = some b) :
    (b.ullCoinDay.toNat : ℤ) ≤ a.settledCoinDay cfg h := by
  obtain ⟨hle, -, hleft⟩ := withdrawal_left cfg h0 hb
  have hle' := UInt64.le_iff_toNat_le.mp hle
  have hpos : 0 < x.toNat := UInt64.lt_iff_toNat_lt.mp (UInt64.pos_iff_ne_zero.mpr h0)
  rw [hleft]
  apply raised_le
  exact remainPart_le (a.settledCoinDay_nonneg cfg h) (by omega) (by omega)

theorem withdrawal_antitone {a b c : CAccount} {h : ℤ} {x y : UInt64} (h0 : x ≠ 0) (hxy : x ≤ y)
    (hb : a.operateAccount cfg .minusFree x h = some b) (hc : a.operateAccount cfg .minusFree y h = some c) :
    c.ullCoinDay ≤ b.ullCoinDay := by
  have hxy' := UInt64.le_iff_toNat_le.mp hxy
  have hpos : 0 < x.toNat := UInt64.lt_iff_toNat_lt.mp (UInt64.pos_iff_ne_zero.mpr h0)
  have hy0 : y ≠ 0 := by
    rintro rfl
    simp at hxy'
    omega
  obtain ⟨-, -, hleft⟩ := withdrawal_left cfg h0 hb
  obtain ⟨hle, -, hleft'⟩ := withdrawal_left cfg hy0 hc
  have hle' := UInt64.le_iff_toNat_le.mp hle
  have hmono : (c.ullCoinDay.toNat : ℤ) ≤ b.ullCoinDay.toNat := by
    rw [hleft, hleft']
    apply raised_mono
    exact remainPart_antitone (a.settledCoinDay_nonneg cfg h) (by omega) (by omega) (by omega)
  exact UInt64.le_iff_toNat_le.mpr (by omega)

/-- Settling comes before the balance is looked at, so a refusal shows only where nothing is settled. -/
theorem withdrawal_refused_iff {a : CAccount} {h : ℤ} {x : UInt64} (hlt : a.ullValues < x) :
    a.operateAccountMut cfg .minusFree x h = some (false, a)
      ↔ h ≤ a.nHeight ∨ isMoneyOverflow cfg x = false := by
  have hnone : a.operateAccount cfg .minusFree x h = none := by
    apply Option.not_isSome_iff_eq_none.mp
    rw [operateAccount_minusFree_isSome cfg (UInt64.pos_iff_ne_zero.mp (UInt64.lt_of_le_of_lt
      (UInt64.zero_le) hlt))]
    rintro ⟨-, -, hle⟩
    exact absurd hle (UInt64.not_le.mpr hlt)
  rw [operateAccountMut_eq, hnone]
  unfold leftBehind
  cases hr : isMoneyOverflow cfg x with
  | false => simp
  | true =>
    by_cases hh : h ≤ a.nHeight
    · simp [hh, a.upDateCoinDay_of_le cfg hh]
    · have hne : a.upDateCoinDay cfg h ≠ a := by
        intro heq
        have hheight := a.upDateCoinDay_nHeight cfg (show a.nHeight ≤ h by omega)
        rw [heq] at hheight
        omega
      simp [hh, hne]

/-- Withdrawals from the fork on against exact integers. -/
theorem withdrawal_exact_iff (a : CAccount) (h : ℤ) (hfork : blockRemainCoinDayHeight ≤ h)
    (hv : (a.ullValues.toNat : ℤ) ≤ cfg.getMaxMoney)
    (hcap : a.settledCoinDay cfg h ≤ a.maxCoinDay cfg) :
    (∀ x : UInt64, 0 < x → x ≤ a.ullValues →
      ((∃ b, a.operateAccountMut cfg .minusFree x h = some (true, b) ∧
          b.ullValues.toNat = a.ullValues.toNat - x.toNat ∧
          (b.ullCoinDay.toNat : ℤ) = a.exactRemain cfg h x.toNat)
        ↔ a.cKeyID ≠ 0 ∧ a.FloorFits cfg h x.toNat)) ∧
    (∀ (x : UInt64) (b : CAccount), 0 < x → a.operateAccountMut cfg .minusFree x h = some (true, b) →
      (b.ullCoinDay.toNat : ℤ) ≤ a.settledCoinDay cfg h) ∧
    (∀ (x y : UInt64) (b c : CAccount), 0 < x → x ≤ y →
      a.operateAccountMut cfg .minusFree x h = some (true, b) →
      a.operateAccountMut cfg .minusFree y h = some (true, c) → c.ullCoinDay ≤ b.ullCoinDay) ∧
    ∀ x : UInt64, a.ullValues < x →
      (a.operateAccountMut cfg .minusFree x h = some (false, a)
        ↔ h ≤ a.nHeight ∨ isMoneyOverflow cfg x = false) := by
  refine ⟨fun x h0 hle => ?_, fun x b h0 hb => ?_, fun x y b c h0 hxy hb hc => ?_, fun x hlt => ?_⟩
  · exact withdrawal_exact cfg hfork (isMoneyOverflow_of_le cfg hv hle) hcap (UInt64.pos_iff_ne_zero.mp h0) hle
  · exact withdrawal_kept_le cfg (UInt64.pos_iff_ne_zero.mp h0) ((operateAccountMut_true_iff cfg).mp hb)
  · exact withdrawal_antitone cfg (UInt64.pos_iff_ne_zero.mp h0) hxy ((operateAccountMut_true_iff cfg).mp hb)
      ((operateAccountMut_true_iff cfg).mp hc)
  · exact withdrawal_refused_iff cfg hlt

/-! ## The cap -/

/-- When the coin day stays within the cap.  Money that comes in raises the cap, unless the balance wraps.
A withdrawal before the fork leaves the coin day whole, or at the floor of a balance that is gone; from
the fork on it is the floor, of the balance before, that can be too much. -/
def KeepsCap (a : CAccount) (type : EmOperType) (h : ℤ) (x : UInt64) : Prop :=
  x = 0 ∨
  (type = .addFree ∧ (0 ≤ cfg.nIntervalPos ∧ a.ullValues.toNat + x.toNat < 2 ^ 64 ∨
    a.settledCoinDay cfg h ≤ (a.ullValues.toNat + x.toNat) % 2 ^ 64 * cfg.getMaxDay)) ∨
  (type = .minusFree ∧ h < blockRemainCoinDayHeight ∧ x < a.ullValues ∧
    a.settledCoinDay cfg h ≤ (a.ullValues.toNat - x.toNat) * cfg.getMaxDay) ∨
  (type = .minusFree ∧ h < blockRemainCoinDayHeight ∧ x = a.ullValues ∧
    (a.minerCoinDay cfg % 2 ^ 64 = 0 ∨ a.settledCoinDay cfg h ≤ a.minerCoinDay cfg % 2 ^ 64)) ∨
  (type = .minusFree ∧ blockRemainCoinDayHeight ≤ h ∧
    (a.settledCoinDay cfg h ≤ a.minerCoinDay cfg % 2 ^ 64 ∨
     a.minerCoinDay cfg % 2 ^ 64
        ≤ a.settledCoinDay cfg h * (a.ullValues.toNat - x.toNat) / a.ullValues.toNat ∨
     a.minerCoinDay cfg % 2 ^ 64 ≤ (a.ullValues.toNat - x.toNat) * cfg.getMaxDay))

theorem operateAccount_zero {type : EmOperType} {h : ℤ} {a b : CAccount}
    (hop : a.operateAccount cfg type 0 h = some b) : b = a.upDateCoinDay cfg h := by
  unfold operateAccount at hop
  split at hop
  · cases hop
  · dsimp only at hop
    split at hop
    · cases hop
    · rw [if_pos rfl] at hop
      exact (Option.some.inj hop).symm

theorem operateAccount_addFree {x : UInt64} {h : ℤ} {a b : CAccount} (h0 : x ≠ 0)
    (hop : a.operateAccount cfg .addFree x h = some b) :
    b.ullCoinDay = (a.upDateCoinDay cfg h).ullCoinDay ∧ b.nHeight = (a.upDateCoinDay cfg h).nHeight ∧
      b.ullValues = a.ullValues + x := by
  have hval := upDateCoinDay_ullValues cfg a h
  unfold operateAccount at hop
  split at hop
  · cases hop
  · dsimp only at hop
    split at hop
    · cases hop
    · rw [hval] at hop
      split at hop
      · cases hop
      · obtain rfl := Option.some.inj hop
        exact ⟨rfl, rfl, rfl⟩

theorem capped_iff_settled {a b : CAccount} {h : ℤ} (hcoin : b.ullCoinDay = (a.upDateCoinDay cfg h).ullCoinDay) :
    b.Capped cfg ↔ a.settledCoinDay cfg h ≤ b.ullValues.toNat * cfg.getMaxDay := by
  unfold Capped
  rw [hcoin, upDateCoinDay_settled]
  rfl

theorem capped_addFree_iff {x : UInt64} {h : ℤ} {a b : CAccount} (hcap : a.Capped cfg) (h0 : x ≠ 0)
    (hop : a.operateAccount cfg .addFree x h = some b) :
    b.Capped cfg ↔ a.KeepsCap cfg .addFree h x := by
  have hsettled := a.settledCoinDay_le_max cfg h hcap
  obtain ⟨hcoin, -, hval⟩ := operateAccount_addFree cfg h0 hop
  have hsum : (b.ullValues.toNat : ℤ) = (a.ullValues.toNat + x.toNat) % 2 ^ 64 := by
    rw [hval, UInt64.toNat_add]
    push_cast
    rfl
  rw [capped_iff_settled cfg hcoin, hsum]
  unfold KeepsCap
  constructor
  · exact fun hle => .inr (.inl ⟨rfl, .inr hle⟩)
  · rintro (hz | ⟨-, ⟨hI, hfit⟩ | hle⟩ | ⟨ht, -⟩ | ⟨ht, -⟩ | ⟨ht, -⟩)
    · exact absurd hz h0
    · have hM : 0 ≤ cfg.getMaxDay := mul_nonneg hI (by norm_num)
      rw [Int.emod_eq_of_lt (by omega) (by exact_mod_cast hfit), add_mul]
      have hmore : 0 ≤ (x.toNat : ℤ) * cfg.getMaxDay := mul_nonneg (by omega) hM
      unfold maxCoinDay at hsettled
      omega
    · exact hle
    · cases ht
    · cases ht
    · cases ht

/-- The rescaled coin day is within the rescaled cap. -/
theorem rescaled_le_cap {coinDay v x M : ℤ} (hcap : coinDay ≤ v * M) (hv : 0 < v) (hxv : x ≤ v) :
    coinDay * (v - x) / v ≤ (v - x) * M := by
  apply Int.ediv_le_of_le_mul hv
  calc coinDay * (v - x) ≤ v * M * (v - x) := mul_le_mul_of_nonneg_right hcap (by omega)
    _ = (v - x) * M * v := by ring

theorem capped_minusFree_iff {x : UInt64} {h : ℤ} {a b : CAccount} (hcap : a.Capped cfg) (h0 : x ≠ 0)
    (hop : a.operateAccount cfg .minusFree x h = some b) :
    b.Capped cfg ↔ a.KeepsCap cfg .minusFree h x := by
  have hsettled := a.settledCoinDay_le_max cfg h hcap
  have hnonneg := a.settledCoinDay_nonneg cfg h
  have hfloor := Int.emod_nonneg (a.minerCoinDay cfg) (show (2 ^ 64 : ℤ) ≠ 0 by norm_num)
  have hpos : 0 < x.toNat := UInt64.lt_iff_toNat_lt.mp (UInt64.pos_iff_ne_zero.mpr h0)
  obtain ⟨hr, hk, hle⟩ := (operateAccount_minusFree_isSome cfg (h := h) (a := a) h0).mp (by rw [hop]; rfl)
  obtain ⟨c, hc, hval, -, hleft⟩ := operateAccount_minusFree cfg (h := h) hr hk h0 hle
  obtain rfl : b = c := Option.some.inj (hop.symm.trans hc)
  have hle' := UInt64.le_iff_toNat_le.mp hle
  have hrest : (b.ullValues.toNat : ℤ) = a.ullValues.toNat - x.toNat := by
    rw [hval, UInt64.toNat_sub_of_le _ _ hle]
    omega
  have hlt : x < a.ullValues ↔ (x.toNat : ℤ) < a.ullValues.toNat :=
    UInt64.lt_iff_toNat_lt.trans (by omega)
  have heq : x = a.ullValues ↔ (x.toNat : ℤ) = a.ullValues.toNat :=
    UInt64.toNat_inj.symm.trans (by omega)
  have hcut := rescaled_le_cap (x := x.toNat) (M := cfg.getMaxDay) hsettled (by omega) (by omega)
  unfold Capped KeepsCap
  rw [hleft, show b.maxCoinDay cfg = (a.ullValues.toNat - x.toNat) * cfg.getMaxDay by
    unfold maxCoinDay; rw [hrest], hlt, heq]
  simp only [h0, false_or, reduceCtorEq, false_and, true_and]
  unfold remainPart raised
  generalize a.minerCoinDay cfg % 2 ^ 64 = floor at *
  generalize a.settledCoinDay cfg h = coinDay at *
  generalize coinDay * ((a.ullValues.toNat : ℤ) - x.toNat) / a.ullValues.toNat = cut at *
  by_cases hfork : h < blockRemainCoinDayHeight
  · rw [if_pos hfork]
    by_cases hall : (x.toNat : ℤ) < a.ullValues.toNat
    · rw [if_pos hall, if_neg (by omega)]
      simp [hfork, hall, hall.ne]
    · rw [if_neg hall, show (a.ullValues.toNat : ℤ) - x.toNat = 0 by omega, zero_mul]
      simp only [hfork, hall, true_and, false_and, false_or]
      split
      · omega
      · omega
  · rw [if_neg hfork]
    simp only [hfork, false_and, false_or]
    split
    · omega
    · omega

/-- An operation that goes through keeps the coin day within the cap exactly then. -/
theorem capped_operateAccount_iff (a b : CAccount) (type : EmOperType) (x : UInt64) (h : ℤ)
    (hcap : a.Capped cfg) (hop : a.operateAccount cfg type x h = some b) :
    b.Capped cfg ↔ a.KeepsCap cfg type h x := by
  by_cases h0 : x = 0
  · subst h0
    obtain rfl := operateAccount_zero cfg hop
    rw [capped_iff_settled cfg (h := h) (a := a) rfl, upDateCoinDay_ullValues]
    exact ⟨fun _ => .inl rfl, fun _ => a.settledCoinDay_le_max cfg h hcap⟩
  · cases type with
    | addFree => exact capped_addFree_iff cfg hcap h0 hop
    | minusFree => exact capped_minusFree_iff cfg hcap h0 hop
    | null =>
      obtain ⟨-, -, -, ⟨hz, -⟩ | ⟨ht, -⟩ | ⟨ht, -⟩⟩ := operateAccount_cases cfg hop
      · exact absurd hz h0
      · cases ht
      · cases ht

end CAccount

/-! ### On an account at the fork -/

namespace Sample

/-- Ten coins that are as old as counts, settled at the fork. -/
def oldHolder : CAccount :=
  { holder with nHeight := blockRemainCoinDayHeight, ullCoinDay := holder.getMaxCoinDay cfg }

/-- Half of the most money there can be, of which the floor is past 2^64. -/
def richOldHolder : CAccount :=
  { richHolder with nHeight := blockRemainCoinDayHeight, ullCoinDay := 18000000000000000000 }

/-- The wrapped floor raises what should be half of the coin day, on a settled account; and a refusal has
settled an account that was not. -/
theorem withdrawal_wraps :
    (¬ ∀ (a : CAccount) (h : ℤ) (x : UInt64) (b : CAccount), blockRemainCoinDayHeight ≤ h → a.nHeight = h →
      (a.ullValues.toNat : ℤ) ≤ cfg.getMaxMoney → a.Capped cfg → 0 < x → x ≤ a.ullValues →
      a.operateAccountMut cfg .minusFree x h = some (true, b) →
      (b.ullCoinDay.toNat : ℤ) = a.exactRemain cfg h x.toNat) ∧
    ¬ ∀ (a : CAccount) (h : ℤ) (x : UInt64), blockRemainCoinDayHeight ≤ h → a.Capped cfg →
      a.ullValues < x → a.operateAccountMut cfg .minusFree x h = some (false, a) := by
  constructor
  · intro hall
    have h := hall richOldHolder blockRemainCoinDayHeight 50000000000000000 _ (by decide) rfl (by decide)
      (by unfold CAccount.Capped; decide +kernel) (by decide) (by decide) rfl
    revert h
    decide +kernel
  · intro hall
    have h := hall holder blockRemainCoinDayHeight 2000000000 (by decide) (by unfold CAccount.Capped; decide)
      (by decide)
    revert h
    decide +kernel

/-- One coin of ten goes, and a tenth of the coin day. -/
theorem withdrawal_exact_iff_oldHolder :
    ∃ b, oldHolder.operateAccountMut cfg .minusFree 100000000 blockRemainCoinDayHeight = some (true, b) ∧
      b.ullValues.toNat = oldHolder.ullValues.toNat - (100000000 : UInt64).toNat ∧
      (b.ullCoinDay.toNat : ℤ)
        = oldHolder.exactRemain cfg blockRemainCoinDayHeight (100000000 : UInt64).toNat :=
  ((CAccount.withdrawal_exact_iff cfg oldHolder blockRemainCoinDayHeight (by decide) (by decide)
    (by decide +kernel)).1 100000000 (by decide) (by decide)).mpr ⟨by decide, .inl (by decide +kernel)⟩

/-- All ten coins go, and the floor of the ten coins stays. -/
theorem cap_is_passed : ¬ ∀ (a b : CAccount) (x : UInt64) (h : ℤ), a.Capped cfg →
    a.operateAccount cfg .minusFree x h = some b → b.Capped cfg := by
  intro hall
  have h := hall oldHolder _ 1000000000 blockRemainCoinDayHeight
    (by unfold CAccount.Capped; decide +kernel) rfl
  unfold CAccount.Capped at h
  revert h
  decide +kernel

/-- One coin goes within the cap. -/
theorem capped_operateAccount_iff_oldHolder :
    ∃ b, oldHolder.operateAccount cfg .minusFree 100000000 blockRemainCoinDayHeight = some b ∧ b.Capped cfg :=
  ⟨_, rfl, (CAccount.capped_operateAccount_iff cfg oldHolder _ .minusFree 100000000 blockRemainCoinDayHeight
    (by unfold CAccount.Capped; decide +kernel) rfl).mpr
      (.inr (.inr (.inr (.inr ⟨rfl, by decide, .inr (.inr (by decide +kernel))⟩))))⟩

end Sample

end Dacrs
