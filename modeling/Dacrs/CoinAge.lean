import Dacrs.Lib.Calls
import Dacrs.Withdrawal

/-!
# Coin age along a run

A holding is an account with what its balance has really earned: the balance of each block, up to the
height of the last thing that happened to it.  An operation settles before it changes the balance, so the
coin day stays within that; a matured reward only adds to the balance, and what comes next settles the
blocks before it too.  `coin_age_earned` follows the runs in which a reward finds nothing left to settle.
-/

namespace Dacrs

/-- What happens to an account. -/
inductive AccountEvent where
  | operate (type : EmOperType) (value : UInt64) (nCurHeight : ℤ)
  | reward (tx : CRewardTransaction) (nIndex nHeight : ℤ)

theorem CRewardTransaction.operateReward_cases (node : Node) {tx : CRewardTransaction} {nIndex h : ℤ}
    {a b : CAccount} (hres : tx.operateReward node nIndex h a = .ok b) :
    nIndex = 0 ∧ b = a.clearAccPos node.cfg h ∨
      nIndex = -1 ∧ b = { a with ullValues := a.ullValues + tx.ullRewardValue } := by
  unfold operateReward at hres
  split at hres
  · next h0 => exact .inl ⟨h0, (Except.ok.inj hres).symm⟩
  · split at hres
    · next h1 => exact .inr ⟨h1, (Except.ok.inj hres).symm⟩
    · cases hres

namespace AccountEvent

variable (node : Node)

def height : AccountEvent → ℤ
  | operate _ _ h => h
  | reward _ _ h => h

/-- What the call returns, with the account it leaves; `none` is a call that does not return. -/
def run (a : CAccount) : AccountEvent → Option (Bool × CAccount)
  | operate type value h => a.operateAccountMut node.cfg type value h
  | reward tx nIndex h => match tx.operateReward node nIndex h a with
    | .ok b => some (true, b)
    | .error _ => some (false, a)

end AccountEvent

namespace CAccount

/-- A refusal that leaves any account as it was, at a height nothing is settled for: there can be no
such amount, the account has no key, or the operation is none or takes more than there is. -/
def RefusedAsIs (cfg : SysCfg) (type : EmOperType) (value : UInt64) (a : CAccount) : Prop :=
  isMoneyOverflow cfg value = false ∨ a.cKeyID = 0 ∨
    value ≠ 0 ∧ (type = .null ∨ type = .minusFree ∧ a.ullValues < value)

/-- The check of the height compares a `bool` with `< 0` and refuses nothing. -/
theorem operateAccountMut_below_iff (cfg : SysCfg) {type : EmOperType} {value : UInt64} {h : ℤ} {a : CAccount}
    (hlow : h < a.nHeight) :
    a.operateAccountMut cfg type value h = some (false, a) ↔ a.RefusedAsIs cfg type value := by
  have hsettled := a.upDateCoinDay_of_le cfg hlow.le
  unfold operateAccountMut RefusedAsIs
  rw [hsettled]
  by_cases hr : isMoneyOverflow cfg value = true
  · by_cases hk : a.cKeyID = 0
    · rw [hr, Bool.not_true, if_neg (by simp)]
      dsimp only
      rw [if_pos hk]
      exact ⟨fun _ => .inr (.inl hk), fun _ => rfl⟩
    · rw [hr, Bool.not_true, if_neg (by simp)]
      dsimp only
      rw [if_neg hk]
      have hk' : a.cKeyID ≠ 0#160 := hk
      by_cases h0 : value = 0
      · simp [h0, hk']
      · rw [if_neg h0]
        cases type with
        | addFree =>
          have hgrown : a.ullValues + value ≠ a.ullValues := by
            intro heq
            exact h0 (by simpa using heq)
          have hne : ({ a with ullValues := a.ullValues + value } : CAccount) ≠ a :=
            fun heq => hgrown (congrArg CAccount.ullValues heq)
          simp [hk', hne]
        | minusFree =>
          by_cases hlt : a.ullValues < value
          · simp [h0, hlt]
          · have hle := UInt64.not_lt.mp hlt
            simp [hk', hlt, remainCoinDay256_eq h0 hle]
        | null => simp [h0]
  · simp [hr]

/-- An operation leaves the account as it was, or with no more coin day than it settles. -/
theorem operateAccountMut_left (cfg : SysCfg) {type : EmOperType} {value : UInt64} {h : ℤ} {a b : CAccount}
    {ok : Bool} (hop : a.operateAccountMut cfg type value h = some (ok, b)) :
    b = a ∨ b.nHeight = (a.upDateCoinDay cfg h).nHeight ∧ (b.ullCoinDay.toNat : ℤ) ≤ a.settledCoinDay cfg h := by
  have hset := a.upDateCoinDay_settled cfg h
  rw [operateAccountMut_eq] at hop
  obtain ⟨-, hb⟩ := Prod.mk.inj (Option.some.inj hop)
  cases hres : a.operateAccount cfg type value h with
  | none =>
    rw [hres, Option.getD_none] at hb
    subst hb
    unfold leftBehind
    split
    · exact .inl rfl
    · split
      · exact .inr ⟨rfl, hset.le⟩
      · exact .inr ⟨rfl, hset.le⟩
  | some c =>
    rw [hres, Option.getD_some] at hb
    subst hb
    right
    by_cases h0 : value = 0
    · subst h0
      rw [operateAccount_zero cfg hres]
      exact ⟨rfl, hset.le⟩
    · cases type with
      | addFree =>
        obtain ⟨hcoin, hheight, -⟩ := operateAccount_addFree cfg h0 hres
        exact ⟨hheight, hcoin ▸ hset.le⟩
      | minusFree => exact ⟨(withdrawal_left cfg h0 hres).2.1, withdrawal_kept_le cfg h0 hres⟩
      | null =>
        obtain ⟨-, -, -, ⟨hz, -⟩ | ⟨ht, -⟩ | ⟨ht, -⟩⟩ := operateAccount_cases cfg hres
        · exact absurd hz h0
        · cases ht
        · cases ht

end CAccount

/-- An account, and what its balance has earned up to a height. -/
structure Holding where
  acct : CAccount
  height : ℤ
  held : ℤ
deriving DecidableEq

namespace Holding

variable (node : Node)

/-- The balance held until `h` earns; then the account is another. -/
def after (s : Holding) (h : ℤ) (b : CAccount) : Holding where
  acct := b
  height := max s.height h
  held := s.held + s.acct.ullValues.toNat * max 0 (h - s.height)

/-- An event that leaves the account as it was is none. -/
def next (s : Holding) (e : AccountEvent) (b : CAccount) : Holding :=
  if b = s.acct then s else s.after e.height b

def Step (s : Holding) (e : AccountEvent) (t : Holding) : Prop :=
  ∃ ok b, e.run node s.acct = some (ok, b) ∧ t = s.next e b

/-- The coin day is at most what has been earned, up to the height it is settled for. -/
structure Earned (s : Holding) : Prop where
  settled : s.height = s.acct.nHeight
  coinDay : (s.acct.ullCoinDay.toNat : ℤ) ≤ s.held

/-- An operation comes no earlier than what is settled, or is refused and changes nothing.  A matured
reward comes when nothing is left to settle. -/
def Orderly (s : Holding) : AccountEvent → Prop
  | .operate type value h => s.acct.nHeight ≤ h ∨ s.acct.RefusedAsIs node.cfg type value
  | .reward _ nIndex h => nIndex = -1 → h ≤ s.acct.nHeight

theorem earned_of_settled {s : Holding} {h : ℤ} {b : CAccount} (hs : s.Earned)
    (hheight : b.nHeight = (s.acct.upDateCoinDay node.cfg h).nHeight)
    (hcoin : (b.ullCoinDay.toNat : ℤ) ≤ s.acct.settledCoinDay node.cfg h) : (s.after h b).Earned := by
  have hsettled := hs.settled
  have hcoinDay := hs.coinDay
  by_cases hle : s.acct.nHeight ≤ h
  · have hup := s.acct.settledCoinDay_le node.cfg hle
    rw [s.acct.upDateCoinDay_nHeight node.cfg hle] at hheight
    refine ⟨?_, ?_⟩
    · show max s.height h = b.nHeight
      omega
    · show (b.ullCoinDay.toNat : ℤ) ≤ s.held + s.acct.ullValues.toNat * max 0 (h - s.height)
      rw [hsettled, max_eq_right (by omega)]
      omega
  · rw [s.acct.upDateCoinDay_of_le node.cfg (by omega)] at hheight
    unfold CAccount.settledCoinDay at hcoin
    rw [if_pos (by omega)] at hcoin
    refine ⟨?_, ?_⟩
    · show max s.height h = b.nHeight
      omega
    · show (b.ullCoinDay.toNat : ℤ) ≤ s.held + s.acct.ullValues.toNat * max 0 (h - s.height)
      rw [max_eq_left (by omega), mul_zero]
      omega

/-- What one event keeps. -/
theorem Earned.step {s t : Holding} {e : AccountEvent} (hs : s.Earned) (hord : s.Orderly node e)
    (hstep : s.Step node e t) : t.Earned := by
  obtain ⟨ok, b, hrun, rfl⟩ := hstep
  unfold next
  by_cases hsame : b = s.acct
  · rwa [if_pos hsame]
  · rw [if_neg hsame]
    cases e with
    | operate type value h =>
      obtain rfl | ⟨hheight, hcoin⟩ := CAccount.operateAccountMut_left node.cfg hrun
      · exact absurd rfl hsame
      · exact earned_of_settled node hs hheight hcoin
    | reward tx nIndex h =>
      cases hres : tx.operateReward node nIndex h s.acct with
      | error e =>
        rw [AccountEvent.run, hres] at hrun
        obtain ⟨-, rfl⟩ := Prod.mk.inj (Option.some.inj hrun)
        exact absurd rfl hsame
      | ok c =>
        rw [AccountEvent.run, hres] at hrun
        obtain ⟨-, rfl⟩ := Prod.mk.inj (Option.some.inj hrun)
        obtain ⟨-, rfl⟩ | ⟨h1, rfl⟩ := CRewardTransaction.operateReward_cases node hres
        · exact earned_of_settled node hs rfl (s.acct.settledCoinDay_nonneg node.cfg h)
        · have hsettled := s.acct.upDateCoinDay_of_le node.cfg (hord h1)
          apply earned_of_settled node hs
          · show s.acct.nHeight = (s.acct.upDateCoinDay node.cfg h).nHeight
            rw [hsettled]
          · show (s.acct.ullCoinDay.toNat : ℤ) ≤ s.acct.settledCoinDay node.cfg h
            rw [← s.acct.upDateCoinDay_settled, hsettled]

/-- In a run of orderly events the coin day is never more than the balance held in each block comes to,
and of the operations at a lower height those are refused without a change that name what they cannot
move. -/
theorem coin_age_earned (s t : Holding) (hs : s.Earned)
    (hrun : Calls.ReachedIf (Step node) (Orderly node) s t) :
    (t.acct.ullCoinDay.toNat : ℤ) ≤ t.held ∧
    ∀ (type : EmOperType) (value : UInt64) (h : ℤ), h < t.acct.nHeight →
      (t.acct.operateAccountMut node.cfg type value h = some (false, t.acct)
        ↔ t.acct.RefusedAsIs node.cfg type value) := by
  have ht : t.Earned := hrun.invariant hs fun _ _ _ hP hm hst => hP.step node hm hst
  exact ⟨ht.coinDay, fun _ _ _ hlow => CAccount.operateAccountMut_below_iff node.cfg hlow⟩

end Holding

/-! ### On ten coins -/

namespace Sample

/-- An account whose coin day is taken as earned. -/
def opened (a : CAccount) : Holding := ⟨a, a.nHeight, a.ullCoinDay.toNat⟩

def maturedReward : CRewardTransaction := ⟨1, .regID ⟨50, 1⟩, 1000000000, 1⟩

/-- Ten coins have come after a thousand blocks. -/
def rewarded : Holding := ⟨{ holder with ullValues := 2000000000 }, 1000, 1000000000000⟩

/-- The next operation settles twenty coins for the thousand blocks. -/
def aged : Holding :=
  ⟨{ holder with ullValues := 2000000000, nHeight := 1000, ullCoinDay := 2000000000000 }, 1000, 1000000000000⟩

/-- Ten coins come as a reward after a thousand blocks, and at the next operation they have aged for as
long as the ten that were there; and an operation at a lower height goes through. -/
theorem reward_has_aged :
    (¬ ∀ s t u : Holding, s.Earned → s.Step node (.reward maturedReward (-1) 1000) t →
      t.Step node (.operate .addFree 0 1000) u → (u.acct.ullCoinDay.toNat : ℤ) ≤ u.held) ∧
    ¬ ∀ (a : CAccount) (type : EmOperType) (value : UInt64) (h : ℤ), h < a.nHeight →
      a.operateAccountMut cfg type value h = some (false, a) := by
  constructor
  · intro hall
    have h := hall (opened holder) rewarded aged ⟨rfl, le_refl _⟩ ⟨true, rewarded.acct, by decide +kernel⟩
      ⟨true, aged.acct, by decide +kernel⟩
    revert h
    decide +kernel
  · intro hall
    have h := hall oldHolder .addFree 1 0 (by decide)
    revert h
    decide +kernel

/-- Five coins come after a thousand blocks, the same reward in the same block, and five coins go after a
thousand more. -/
def grown : Holding :=
  ⟨{ holder with ullValues := 1500000000, nHeight := 1000, ullCoinDay := 1000000000000 }, 1000, 1000000000000⟩
def matured : Holding := { grown with acct := { grown.acct with ullValues := 2500000000 } }
def taken : Holding :=
  ⟨{ holder with ullValues := 2000000000, nHeight := 2000, ullCoinDay := 3500000000000 }, 2000, 3500000000000⟩

theorem coin_age_earned_settled :
    Calls.ReachedIf (Holding.Step node) (Holding.Orderly node) (opened holder) taken ∧
      (taken.acct.ullCoinDay.toNat : ℤ) ≤ taken.held ∧
      taken.acct.operateAccountMut node.cfg .minusFree 3000000000 1999 = some (false, taken.acct) := by
  have hgrown : Calls.ReachedIf (Holding.Step node) (Holding.Orderly node) (opened holder) grown :=
    .call (i := .operate .addFree 500000000 1000) .start (.inl (by decide))
      ⟨true, grown.acct, by decide +kernel, by decide +kernel⟩
  have hmatured : Calls.ReachedIf (Holding.Step node) (Holding.Orderly node) (opened holder) matured :=
    .call (i := .reward maturedReward (-1) 1000) hgrown (fun _ => le_refl _)
      ⟨true, matured.acct, by decide +kernel, by decide +kernel⟩
  have hrun : Calls.ReachedIf (Holding.Step node) (Holding.Orderly node) (opened holder) taken :=
    .call (i := .operate .minusFree 500000000 2000) hmatured (.inl (by decide))
      ⟨true, taken.acct, by decide +kernel, by decide +kernel⟩
  obtain ⟨hearned, hlower⟩ := Holding.coin_age_earned node _ _ ⟨rfl, le_refl _⟩ hrun
  refine ⟨hrun, hearned, (hlower .minusFree 3000000000 1999 (by decide)).mpr ?_⟩
  exact .inr (.inr ⟨by decide, .inr ⟨rfl, by decide⟩⟩)

end Sample

end Dacrs
