import Dacrs.Types

/-!
# What the node is configured with and what it calls outside the repository

`SysCfg` holds the configuration values validation reads, `Crypto` the functions of
the cryptographic library.  Nothing is assumed of either; `isspace` is what the C library says.  An execution that fails ends
in an `Exit`: `return false` after some calls on the `CValidationState`, or an exception.
-/

open Codec (Bytes)

namespace Dacrs

/-! ## Configuration -/

/-- The part of `CBaseParams` (`SysCfg()`) that validation reads. -/
structure SysCfg where
  /-- `NetworkID() == EM_REGTEST` -/
  regTest : Bool
  /-- `TestNet()` -/
  testNet : Bool
  nIntervalPos : ℤ
  nTxCacheHeight : ℤ
  /-- `GetArg("-blocksizeforburn", …)` -/
  nBlockSizeForBurn : ℤ
  llTargetSpacing : ℤ
  llTargetTimespan : ℤ
  /-- `GetOutPutLog`, `GetAddressToTxFlag`, `IsTxIndex` -/
  bOutPut : Bool
  bAddressToTx : Bool
  bTxIndex : Bool
  cHashGenesisBlock : Uint256
  /-- `ProofOfWorkLimit()` -/
  bnProofOfWorkLimit : Uint256
  /-- `Base58Prefix(EM_PUBKEY_ADDRESS)` -/
  pubkeyAddressPrefix : Bytes
deriving DecidableEq, Inhabited

def coin : ℤ := 100000000

/-- `GetMaxMoney`. -/
def SysCfg.getMaxMoney (cfg : SysCfg) : ℤ :=
  if cfg.regTest then 20 * (1000000000 * coin) else 1000000000 * coin

/-- `MoneyRange(int64_t)`. -/
def SysCfg.moneyRange (cfg : SysCfg) (llValue : Int64) : Bool :=
  0 ≤ llValue.toInt && llValue.toInt ≤ cfg.getMaxMoney

/-- `GetBlockMaxNonce()`, the same on every network. -/
def blockMaxNonce : UInt32 := 1000

def SysCfg.getMaxDay (cfg : SysCfg) : ℤ := cfg.nIntervalPos * 30

/-! ## Cryptographic library -/

structure Crypto where
  /-- SHA-256 twice -/
  Hash : Bytes → Uint256
  /-- RIPEMD-160 of SHA-256 -/
  Hash160 : Bytes → Uint160
  /-- `CECKey::SetPubKey` -/
  setPubKey : Bytes → Bool
  /-- `CPubKey::Verify` on the key's bytes, the signed hash and the signature -/
  verify : Bytes → Uint256 → Bytes → Bool

namespace CPubKey

variable (cr : Crypto)

/-- `IsFullyValid`. -/
def isFullyValid (p : CPubKey) : Bool := p.isValid && cr.setPubKey p.vch

/-- `GetKeyID`. -/
def getKeyID (p : CPubKey) : CKeyID := cr.Hash160 p.vch

end CPubKey

/-! ## C library -/

/-- `isspace` of the C locale, on the code of a character. -/
def isspace (c : ℕ) : Bool := c == 32 || (9 ≤ c && c ≤ 13)

/-! ## Validation state -/

/-- One call on a `CValidationState`. -/
inductive StateCall where
  /-- `DoS(level, …, code, reason, corruption)`; `Invalid` is level 0 -/
  | doS (level : ℤ) (code : UInt8) (reason : String) (corruption : Bool)
  /-- `Error` and `Abort` -/
  | error (reason : String)
deriving DecidableEq, Inhabited

inductive EmModeState where
  | valid
  | invalid
  | error
deriving DecidableEq, Inhabited

structure CValidationState where
  emMode : EmModeState
  nDoS : ℤ
  strRejectReason : String
  chRejectCode : UInt8
  bCorruptionPossible : Bool
deriving DecidableEq, Inhabited

namespace CValidationState

/-- The constructor (it leaves the reject code unset). -/
def init : CValidationState := ⟨.valid, 0, "", 0, false⟩

def apply (st : CValidationState) : StateCall → CValidationState
  | .doS level code reason corruption =>
    let st := { st with
      chRejectCode := code
      strRejectReason := reason
      bCorruptionPossible := corruption }
    if st.emMode = .error then st
    else { st with nDoS := st.nDoS + level, emMode := .invalid }
  | .error reason =>
    let st := if st.emMode = .valid then { st with strRejectReason := reason } else st
    { st with emMode := .error }

def isInvalid (st : CValidationState) : Bool := st.emMode == .invalid

def isError (st : CValidationState) : Bool := st.emMode == .error

end CValidationState

/-! ## Failing executions -/

/-- How a function that fails ends. -/
inductive Exit where
  /-- `return false`; the calls it made on the state, in order.  `[]` is a plain
  `return false` that leaves the state as it was. -/
  | fail (calls : List StateCall)
  /-- an exception or a violated assertion -/
  | throw (what : String)
deriving DecidableEq, Inhabited

abbrev Exec := Except Exit

/-- REJECT_INVALID, REJECT_OBSOLETE, REJECT_CHECKPOINT, UPDATE_ACCOUNT_FAIL. -/
def rejectInvalid : UInt8 := 0x10
def rejectObsolete : UInt8 := 0x11
def rejectCheckpoint : UInt8 := 0x43
def updateAccountFail : UInt8 := 0x50

namespace Exec

variable {α : Type}

/-- `return state.DoS(level, ERRORMSG(..), code, reason, corruption)`. -/
def doS (level : ℤ) (code : UInt8) (reason : String) (corruption : Bool := false) : Exec α :=
  .error (.fail [.doS level code reason corruption])

/-- `return state.Invalid(ERRORMSG(..), code, reason)`. -/
def invalid (code : UInt8) (reason : String) : Exec α := doS 0 code reason

/-- `return state.Abort(reason)`. -/
def abort (reason : String) : Exec α := .error (.fail [.error reason])

/-- `return ERRORMSG(..)` or `return false`. -/
def returnFalse : Exec α := .error (.fail [])

def throw (what : String) : Exec α := .error (.throw what)

/-- The caller's own call after a callee returned false. -/
def onFalse (x : Exec α) (call : StateCall) : Exec α :=
  match x with
  | .error (.fail calls) => .error (.fail (calls ++ [call]))
  | x => x

/-- The value of a lookup, or the given exit. -/
def ofOption (o : Option α) (els : Exec α) : Exec α :=
  match o with
  | some a => .ok a
  | none => els

/-- Go on if the condition holds, else take the given exit. -/
def require (p : Prop) [Decidable p] (els : Exec Unit) : Exec Unit := if p then .ok () else els

/-! ### What went well -/

/-- An exit taken in place of a result. -/
def Fails (x : Exec α) : Prop := ∀ a, x ≠ .ok a

theorem fails_error (e : Exit) : Fails (.error e : Exec α) := fun _ h => nomatch h

theorem fails_doS (level : ℤ) (code : UInt8) (reason : String) (corruption : Bool) :
    Fails (doS level code reason corruption : Exec α) := fails_error _

theorem fails_returnFalse : Fails (returnFalse : Exec α) := fails_error _

theorem fails_throw (what : String) : Fails (throw what : Exec α) := fails_error _

theorem ofOption_eq_ok {o : Option α} {els : Exec α} {a : α} (hels : Fails els) :
    ofOption o els = .ok a ↔ o = some a := by
  cases o with
  | none =>
    constructor
    · intro h
      exact absurd h (hels a)
    · intro h
      cases h
  | some b =>
    constructor
    · intro h
      cases h
      rfl
    · intro h
      cases h
      rfl

theorem require_eq_ok {p : Prop} [Decidable p] {els : Exec Unit} {u : Unit} (hels : Fails els) :
    require p els = .ok u ↔ p := by
  unfold require
  split
  · next hp => exact iff_of_true rfl hp
  · next hp => exact iff_of_false (hels u) hp

theorem onFalse_eq_ok {x : Exec α} {call : StateCall} {a : α} :
    x.onFalse call = .ok a ↔ x = .ok a := by
  unfold onFalse
  split
  · constructor
    · intro h
      cases h
    · intro h
      cases h
  · rfl

end Exec

end Dacrs
