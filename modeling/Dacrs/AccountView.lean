import Dacrs.Account
import Dacrs.Lib.Store

/-!
# The account view

What a stack of `CAccountViewCache` over the account database answers: the account under
each key id, the key id under each registration id, and the best block.  A cached account
whose key id is zero, and a cached key id that is zero, stand for a removed entry in the
source; here the entry is absent, and the view carries the proof that no such entry is
stored.  The order in which the levels of a stack are searched is not modelled.

`SetAccount` addressed by a registration id succeeds in the source only when the mapping is
already in the top cache; every caller has just read the account through the same id, which
puts it there.
-/

open Codec (Bytes)

namespace Dacrs

@[ext] structure CAccountViewCache where
  accounts : Store CKeyID CAccount
  keyIds : Store CRegID CKeyID
  cHashBlock : Uint256
  live : ∀ k a, accounts.lookup k = some a → a.cKeyID ≠ 0
  mapped : ∀ r k, keyIds.lookup r = some k → k ≠ 0

namespace CAccountViewCache

/-- A stored account is removed when its key id is zero. -/
def liveAccount (a : CAccount) : Option CAccount := if a.cKeyID = 0 then none else some a

/-- A stored key id is removed when it is zero. -/
def liveKey (k : CKeyID) : Option CKeyID := if k = 0 then none else some k

theorem liveAccount_of_ne {a : CAccount} (h : a.cKeyID ≠ 0) : liveAccount a = some a := if_neg h

theorem liveKey_of_ne {k : CKeyID} (h : k ≠ 0) : liveKey k = some k := if_neg h

theorem liveAccount_ne {a b : CAccount} (h : liveAccount a = some b) : b.cKeyID ≠ 0 := by
  unfold liveAccount at h
  split at h
  · cases h
  · next hne =>
    cases h
    exact hne

theorem liveKey_ne {k j : CKeyID} (h : liveKey k = some j) : j ≠ 0 := by
  unfold liveKey at h
  split at h
  · cases h
  · next hne =>
    cases h
    exact hne

/-! ## The two maps -/

section
variable (v : CAccountViewCache)

/-- Write or remove what is stored under a key id. -/
def putAccount (k : CKeyID) (o : Option CAccount) (ho : ∀ a, o = some a → a.cKeyID ≠ 0) :
    CAccountViewCache where
  accounts := v.accounts.put k o
  keyIds := v.keyIds
  cHashBlock := v.cHashBlock
  live j a h := by
    rw [Store.lookup_put] at h
    split at h
    · exact ho a h
    · exact v.live j a h
  mapped := v.mapped

def putKeyId (r : CRegID) (o : Option CKeyID) (ho : ∀ k, o = some k → k ≠ 0) :
    CAccountViewCache where
  accounts := v.accounts
  keyIds := v.keyIds.put r o
  cHashBlock := v.cHashBlock
  live := v.live
  mapped s k h := by
    rw [Store.lookup_put] at h
    split at h
    · exact ho k h
    · exact v.mapped s k h

/-- `SetAccount(const CKeyID &, …)`. -/
def setAccountKey (k : CKeyID) (a : CAccount) : CAccountViewCache :=
  v.putAccount k (liveAccount a) fun _ h => liveAccount_ne h

/-- `EraseAccount(const CKeyID &)`. -/
def eraseAccountKey (k : CKeyID) : CAccountViewCache :=
  v.putAccount k none fun _ h => nomatch h

/-- `SetKeyId(vector, …)`. -/
def setKeyId (r : CRegID) (k : CKeyID) : CAccountViewCache :=
  v.putKeyId r (liveKey k) fun _ h => liveKey_ne h

/-- `EraseKeyId`, `EraseId`. -/
def eraseKeyId (r : CRegID) : CAccountViewCache :=
  v.putKeyId r none fun _ h => nomatch h

/-- `SaveAccountInfo`. -/
def saveAccountInfo (r : CRegID) (k : CKeyID) (a : CAccount) : CAccountViewCache :=
  (v.setKeyId r k).setAccountKey k a

def setBestBlock (h : Uint256) : CAccountViewCache := { v with cHashBlock := h }

/-! ## Lookups through a user id -/

/-- `GetAccount(vector, …)`. -/
def getAccountReg (r : CRegID) : Option CAccount :=
  match v.keyIds.lookup r with
  | some k => v.accounts.lookup k
  | none => none

variable (cr : Crypto)

/-- `GetAccount(const CUserID &, …)`. -/
def getAccount : CUserID → Option CAccount
  | .regID r => v.getAccountReg r
  | .keyID k => v.accounts.lookup k
  | .pubKey p => v.accounts.lookup (p.getKeyID cr)
  | .null => none

/-- `GetKeyId(const CUserID &, …)`. -/
def getKeyId : CUserID → Option CKeyID
  | .regID r => v.keyIds.lookup r
  | .keyID k => some k
  | .pubKey p => some (p.getKeyID cr)
  | .null => none

/-- `SetAccount(const CUserID &, …)`; `none` is `return false`. -/
def setAccount (id : CUserID) (a : CAccount) : Option CAccountViewCache :=
  match id with
  | .regID r => (v.keyIds.lookup r).map fun k => v.setAccountKey k a
  | .keyID k => some (v.setAccountKey k a)
  | .pubKey p => some (v.setAccountKey (p.getKeyID cr) a)
  | .null => none

/-- `EraseAccount(const CUserID &)`. -/
def eraseAccount (id : CUserID) : Option CAccountViewCache :=
  match id with
  | .keyID k => some (v.eraseAccountKey k)
  | .pubKey p => some (v.eraseAccountKey (p.getKeyID cr))
  | _ => none

/-- `GetRegId`. -/
def getRegId (id : CUserID) : Option CRegID :=
  match id with
  | .regID r => some r
  | id => match v.getAccount cr id with
    | some a => if a.cRegID.isEmpty then none else some a.cRegID
    | none => none

end

/-! ## Reading after writing -/

section
variable (v : CAccountViewCache)

@[simp] theorem setAccountKey_accounts (k : CKeyID) (a : CAccount) :
    (v.setAccountKey k a).accounts = v.accounts.put k (liveAccount a) := rfl

@[simp] theorem setAccountKey_keyIds (k : CKeyID) (a : CAccount) :
    (v.setAccountKey k a).keyIds = v.keyIds := rfl

@[simp] theorem setAccountKey_cHashBlock (k : CKeyID) (a : CAccount) :
    (v.setAccountKey k a).cHashBlock = v.cHashBlock := rfl

@[simp] theorem eraseAccountKey_accounts (k : CKeyID) :
    (v.eraseAccountKey k).accounts = v.accounts.put k none := rfl

@[simp] theorem eraseAccountKey_keyIds (k : CKeyID) : (v.eraseAccountKey k).keyIds = v.keyIds := rfl

@[simp] theorem eraseAccountKey_cHashBlock (k : CKeyID) :
    (v.eraseAccountKey k).cHashBlock = v.cHashBlock := rfl

@[simp] theorem setKeyId_accounts (r : CRegID) (k : CKeyID) :
    (v.setKeyId r k).accounts = v.accounts := rfl

@[simp] theorem setKeyId_keyIds (r : CRegID) (k : CKeyID) :
    (v.setKeyId r k).keyIds = v.keyIds.put r (liveKey k) := rfl

@[simp] theorem setKeyId_cHashBlock (r : CRegID) (k : CKeyID) :
    (v.setKeyId r k).cHashBlock = v.cHashBlock := rfl

@[simp] theorem eraseKeyId_accounts (r : CRegID) : (v.eraseKeyId r).accounts = v.accounts := rfl

@[simp] theorem eraseKeyId_keyIds (r : CRegID) :
    (v.eraseKeyId r).keyIds = v.keyIds.put r none := rfl

@[simp] theorem eraseKeyId_cHashBlock (r : CRegID) :
    (v.eraseKeyId r).cHashBlock = v.cHashBlock := rfl

@[simp] theorem setBestBlock_accounts (h : Uint256) : (v.setBestBlock h).accounts = v.accounts := rfl

@[simp] theorem setBestBlock_keyIds (h : Uint256) : (v.setBestBlock h).keyIds = v.keyIds := rfl

@[simp] theorem setBestBlock_cHashBlock (h : Uint256) : (v.setBestBlock h).cHashBlock = h := rfl

/-- An account is found through the key id its name stands for. -/
theorem getAccount_eq_some_iff (cr : Crypto) (id : CUserID) (a : CAccount) :
    v.getAccount cr id = some a ↔ ∃ k, v.getKeyId cr id = some k ∧ v.accounts.lookup k = some a := by
  cases id with
  | null => simp [getAccount, getKeyId]
  | regID r =>
    simp only [getAccount, getAccountReg, getKeyId]
    cases v.keyIds.lookup r <;> simp
  | keyID k => simp [getAccount, getKeyId]
  | pubKey p => simp [getAccount, getKeyId]

/-- An account is written under the key id its name stands for. -/
theorem setAccount_of_getKeyId (cr : Crypto) {id : CUserID} {k : CKeyID}
    (h : v.getKeyId cr id = some k) (a : CAccount) :
    v.setAccount cr id a = some (v.setAccountKey k a) := by
  cases id with
  | null => cases h
  | regID r =>
    have hk : v.keyIds.lookup r = some k := h
    rw [setAccount, hk]
    rfl
  | keyID j =>
    obtain rfl := Option.some.inj h
    rfl
  | pubKey p =>
    obtain rfl := Option.some.inj h
    rfl

/-- A name keeps its key id when only the entry of another registration id changes. -/
theorem getKeyId_congr {v w : CAccountViewCache} (cr : Crypto) {id : CUserID}
    (h : ∀ r, id = .regID r → v.keyIds.lookup r = w.keyIds.lookup r) :
    v.getKeyId cr id = w.getKeyId cr id := by
  cases id with
  | regID r => exact h r rfl
  | null => rfl
  | keyID k => rfl
  | pubKey p => rfl

/-- Two views that answer alike are equal. -/
theorem ext_maps {v w : CAccountViewCache} (ha : v.accounts = w.accounts) (hk : v.keyIds = w.keyIds)
    (hb : v.cHashBlock = w.cHashBlock) : v = w :=
  CAccountViewCache.ext ha hk hb

/-- Storing an account and then what was there before. -/
theorem setAccountKey_restore (k : CKeyID) (a b : CAccount) (h : v.accounts.lookup k = some b) :
    (v.setAccountKey k a).setAccountKey k b = v := by
  refine ext_maps ?_ rfl rfl
  rw [setAccountKey_accounts, setAccountKey_accounts, Store.put_put,
    liveAccount_of_ne (v.live k b h), ← h, Store.put_lookup]

/-- Storing an account where there was none and erasing it. -/
theorem setAccountKey_erase (k : CKeyID) (a : CAccount) (h : v.accounts.lookup k = none) :
    (v.setAccountKey k a).eraseAccountKey k = v := by
  refine ext_maps ?_ rfl rfl
  rw [eraseAccountKey_accounts, setAccountKey_accounts, Store.put_put, ← h, Store.put_lookup]

end

/-! ## Accounts under their own keys -/

/-- Every account is stored under its own key id.  Whatever the node writes keeps this. -/
def WellKeyed (v : CAccountViewCache) : Prop := ∀ k a, v.accounts.lookup k = some a → a.cKeyID = k

theorem WellKeyed.setAccountKey {v : CAccountViewCache} (hv : v.WellKeyed) (a : CAccount) :
    (v.setAccountKey a.cKeyID a).WellKeyed := by
  intro j b h
  rw [setAccountKey_accounts, Store.lookup_put] at h
  split at h
  · next hj =>
    unfold liveAccount at h
    split at h
    · cases h
    · cases h
      exact hj.symm
  · exact hv j b h

theorem WellKeyed.eraseAccountKey {v : CAccountViewCache} (hv : v.WellKeyed) (k : CKeyID) :
    (v.eraseAccountKey k).WellKeyed := by
  intro j b h
  rw [eraseAccountKey_accounts, Store.lookup_put] at h
  split at h
  · cases h
  · exact hv j b h

/-- In a well-keyed view an account found through any id lies under its own key id. -/
theorem WellKeyed.getAccount {v : CAccountViewCache} (hv : v.WellKeyed) (cr : Crypto) {id : CUserID}
    {a : CAccount} (h : v.getAccount cr id = some a) : v.accounts.lookup a.cKeyID = some a := by
  have hkey : ∀ k, v.accounts.lookup k = some a → v.accounts.lookup a.cKeyID = some a := by
    intro k hk
    rw [hv k a hk, hk]
  cases id with
  | null => cases h
  | regID r =>
    simp only [CAccountViewCache.getAccount, getAccountReg] at h
    split at h
    · exact hkey _ h
    · cases h
  | keyID k => exact hkey k h
  | pubKey p => exact hkey _ h

/-- The total balance. -/
def total (v : CAccountViewCache) : Nat := v.accounts.total fun a => a.ullValues.toNat

end CAccountViewCache

end Dacrs
