import Dacrs.Env

/-!
# Accounts

`CAccount` and the operations that change its balance and its coin day.  All amounts
are 64-bit and wrap as in the source; `OperateAccount` and its helpers are translated
branch by branch.  `none` is `return false`.
-/

open Codec (Bytes)

namespace Dacrs

structure CAccount where
  cRegID : CRegID
  cKeyID : CKeyID
  cPublicKey : CPubKey
  cMinerPKey : CPubKey
  ullValues : UInt64
  nHeight : ℤ
  ullCoinDay : UInt64
deriving DecidableEq, Inhabited

/-- `emOperType`; the third value of the source is refused by every user. -/
inductive EmOperType where
  | addFree
  | minusFree
  | null
deriving DecidableEq, Inhabited

/-- `g_sBlockRemainCoinDayHeight`. -/
def blockRemainCoinDayHeight : ℤ := 731400

structure CAccountLog where
  cKeyID : CKeyID
  ullValues : UInt64
  nHeight : ℤ
  ullCoinDay : UInt64
deriving DecidableEq, Inhabited

namespace CAccountLog

/-- `CAccountLog(const CAccount &)` and `SetValue`. -/
def ofAccount (acct : CAccount) : CAccountLog :=
  ⟨acct.cKeyID, acct.ullValues, acct.nHeight, acct.ullCoinDay⟩

/-- `CAccountLog(CKeyID &)`. -/
def ofKeyID (k : CKeyID) : CAccountLog := ⟨k, 0, 0, 0⟩

end CAccountLog

namespace CAccount

/-- `CAccount()`. -/
def null : CAccount := ⟨CRegID.null, 0, CPubKey.invalid, CPubKey.invalid, 0, 0, 0⟩

/-- A fresh account under key `k`. -/
def fresh (k : CKeyID) : CAccount := { null with cKeyID := k }

/-- `IsRegister`. -/
def isRegister (cr : Crypto) (a : CAccount) : Bool :=
  a.cPublicKey.isFullyValid cr && a.cPublicKey.getKeyID cr == a.cKeyID

def isEmptyValue (a : CAccount) : Bool := !(0 < a.ullValues)

theorem isEmptyValue_iff (a : CAccount) : a.isEmptyValue = true ↔ a.ullValues = 0 := by
  have hpos : 0 < a.ullValues ↔ a.ullValues ≠ 0 := UInt64.pos_iff_ne_zero
  simp [isEmptyValue, hpos]

section
variable (cfg : SysCfg)

/-- `IsMiner`. -/
def isMiner (a : CAccount) (nCurHeight : ℤ) : Bool :=
  if nCurHeight < 2 * cfg.nIntervalPos then true
  else a.ullValues * UInt64.ofInt cfg.nIntervalPos ≤ a.ullCoinDay

def getMaxCoinDay (a : CAccount) : UInt64 := a.ullValues * UInt64.ofInt cfg.getMaxDay

/-- `UpDateCoinDay`.  Its `bool` result is compared with `< 0` by the only caller that
looks at it, so the account is all it gives. -/
def upDateCoinDay (a : CAccount) (nCurHeight : ℤ) : CAccount :=
  if nCurHeight < a.nHeight then a
  else if nCurHeight = a.nHeight then a
  else
    let coinDay := a.ullCoinDay + a.ullValues * UInt64.ofInt (nCurHeight - a.nHeight)
    let a := { a with ullCoinDay := coinDay, nHeight := nCurHeight }
    if a.ullCoinDay > a.getMaxCoinDay cfg then { a with ullCoinDay := a.getMaxCoinDay cfg } else a

def clearAccPos (a : CAccount) (nCurHeight : ℤ) : CAccount :=
  { a.upDateCoinDay cfg nCurHeight with ullCoinDay := 0 }

/-- `IsMoneyOverflow` (true when the amount is in range). -/
def isMoneyOverflow (nAddMoney : UInt64) : Bool := cfg.moneyRange nAddMoney.toInt64

/-- The coin day left after `value` is taken from a balance of `values`. -/
def remainCoinDay (coinDay values value : UInt64) (nCurHeight : ℤ) : UInt64 :=
  if nCurHeight < blockRemainCoinDayHeight then coinDay - value / values * coinDay
  else UInt64.ofNat (coinDay.toNat * (values.toNat - value.toNat) / values.toNat)

/-- `OperateAccount`. -/
def operateAccount (type : EmOperType) (value : UInt64) (nCurHeight : ℤ) (a : CAccount) :
    Option CAccount :=
  if !isMoneyOverflow cfg value then none
  else
    let a := a.upDateCoinDay cfg nCurHeight
    if a.cKeyID = 0 then none
    else if value = 0 then some a
    else match type with
      | .addFree =>
        let a := { a with ullValues := a.ullValues + value }
        if !isMoneyOverflow cfg a.ullValues then none else some a
      | .minusFree =>
        if value > a.ullValues then none
        else
          let remain := remainCoinDay a.ullCoinDay a.ullValues value nCurHeight
          let floor := a.ullValues * UInt64.ofInt cfg.nIntervalPos
          let remain := if a.ullCoinDay > floor ∧ remain < floor then floor else remain
          some { a with ullCoinDay := remain, ullValues := a.ullValues - value }
      | .null => none

end

/-- `UndoOperateAccount`. -/
def undoOperateAccount (a : CAccount) (log : CAccountLog) : CAccount :=
  { a with ullValues := log.ullValues, nHeight := log.nHeight, ullCoinDay := log.ullCoinDay }

end CAccount

/-! ## What an operation leaves alone -/

namespace CAccount

variable (cfg : SysCfg)

/-- The four fields that say whose account it is. -/
structure SameIdentity (a b : CAccount) : Prop where
  cRegID : a.cRegID = b.cRegID
  cKeyID : a.cKeyID = b.cKeyID
  cPublicKey : a.cPublicKey = b.cPublicKey
  cMinerPKey : a.cMinerPKey = b.cMinerPKey

theorem SameIdentity.refl (a : CAccount) : a.SameIdentity a := ⟨rfl, rfl, rfl, rfl⟩

theorem SameIdentity.trans {a b c : CAccount} (hab : a.SameIdentity b) (hbc : b.SameIdentity c) :
    a.SameIdentity c :=
  ⟨hab.cRegID.trans hbc.cRegID, hab.cKeyID.trans hbc.cKeyID,
    hab.cPublicKey.trans hbc.cPublicKey, hab.cMinerPKey.trans hbc.cMinerPKey⟩

/-- A log of the old state turns any later state of the same account back. -/
theorem SameIdentity.undo_log {a b : CAccount} (h : b.SameIdentity a) :
    b.undoOperateAccount (.ofAccount a) = a := by
  obtain ⟨h1, h2, h3, h4⟩ := h
  cases a
  cases b
  simp_all [undoOperateAccount, CAccountLog.ofAccount]

theorem upDateCoinDay_sameIdentity (a : CAccount) (h : ℤ) :
    (a.upDateCoinDay cfg h).SameIdentity a := by
  unfold upDateCoinDay
  split
  · exact .refl a
  · split
    · exact .refl a
    · dsimp only
      split <;> exact ⟨rfl, rfl, rfl, rfl⟩

theorem upDateCoinDay_ullValues (a : CAccount) (h : ℤ) :
    (a.upDateCoinDay cfg h).ullValues = a.ullValues := by
  unfold upDateCoinDay
  split
  · rfl
  · split
    · rfl
    · dsimp only
      split <;> rfl

/-- Everything a successful operation can have done. -/
theorem operateAccount_cases {type : EmOperType} {value : UInt64} {h : ℤ} {a b : CAccount}
    (hop : a.operateAccount cfg type value h = some b) :
    isMoneyOverflow cfg value = true ∧ a.cKeyID ≠ 0 ∧ b.SameIdentity a ∧
      ((value = 0 ∧ b.ullValues = a.ullValues) ∨
       (type = .addFree ∧ b.ullValues = a.ullValues + value ∧
          isMoneyOverflow cfg b.ullValues = true) ∨
       (type = .minusFree ∧ value ≤ a.ullValues ∧ b.ullValues = a.ullValues - value)) := by
  have hid := upDateCoinDay_sameIdentity cfg a h
  have hval := upDateCoinDay_ullValues cfg a h
  unfold operateAccount at hop
  split at hop
  · cases hop
  · next hrange =>
    dsimp only at hop
    split at hop
    · cases hop
    · next hkey =>
      have hkey' : a.cKeyID ≠ 0 := fun h0 => hkey (hid.cKeyID.trans h0)
      refine ⟨by simpa using hrange, hkey', ?_⟩
      split at hop
      · next h0 =>
        obtain rfl := Option.some.inj hop
        exact ⟨hid, .inl ⟨h0, hval⟩⟩
      · cases type with
        | addFree =>
          dsimp only at hop
          split at hop
          · cases hop
          · next hsum =>
            obtain rfl := Option.some.inj hop
            refine ⟨⟨hid.cRegID, hid.cKeyID, hid.cPublicKey, hid.cMinerPKey⟩, .inr (.inl ?_)⟩
            exact ⟨rfl, by rw [← hval], by simpa using hsum⟩
        | minusFree =>
          dsimp only at hop
          split at hop
          · cases hop
          · next hle =>
            obtain rfl := Option.some.inj hop
            refine ⟨⟨hid.cRegID, hid.cKeyID, hid.cPublicKey, hid.cMinerPKey⟩, .inr (.inr ?_)⟩
            exact ⟨rfl, by rw [← hval]; exact UInt64.not_lt.mp hle, by rw [← hval]⟩
        | null => cases hop

end CAccount

end Dacrs
