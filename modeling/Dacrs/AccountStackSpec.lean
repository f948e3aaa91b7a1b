import Dacrs.AccountCache

/-!
# Reads and writes of a stack of account caches

Every read of a stack returns what the stack holds (`account`, `keyId`) and leaves a stack that
answers alike; every write changes exactly one answer.  One lemma for each operation of the
module AccountCache, by induction over the caches.
-/

open Codec (Bytes)

namespace Dacrs

namespace AccountStack

open CAccountViewCache (liveAccount liveKey)

variable {db : CAccountViewDB} {c c' : AccountCache} {base base' caches : List AccountCache}

/-! ## Answers -/

theorem account_cons_of_some {k : CKeyID} {a : CAccount} (h : c.mapCacheAccounts.lookup k = some a) :
    account db (c :: base) k = liveAccount a :=
  Overlay.resolve_cons_of_some (by rw [AccountCache.accountLevel, h]; rfl)

theorem account_cons_of_none {k : CKeyID} (h : c.mapCacheAccounts.lookup k = none) :
    account db (c :: base) k = account db base k :=
  Overlay.resolve_cons_of_none (by rw [AccountCache.accountLevel, h]; rfl)

theorem keyId_cons_of_some {r : CRegID} {k : CKeyID} (h : c.mapCacheKeyIds.lookup r = some k) :
    keyId db (c :: base) r = liveKey k :=
  Overlay.resolve_cons_of_some (by rw [AccountCache.keyIdLevel, h]; rfl)

theorem keyId_cons_of_none {r : CRegID} (h : c.mapCacheKeyIds.lookup r = none) :
    keyId db (c :: base) r = keyId db base r :=
  Overlay.resolve_cons_of_none (by rw [AccountCache.keyIdLevel, h]; rfl)

/-- An account that is found has a key id. -/
theorem account_ne {k : CKeyID} {a : CAccount} (h : account db caches k = some a) : a.cKeyID ≠ 0 := by
  induction caches with
  | nil => exact db.live k a h
  | cons c base ih =>
    cases hc : c.mapCacheAccounts.lookup k with
    | some b =>
      rw [account_cons_of_some hc] at h
      exact CAccountViewCache.liveAccount_ne h
    | none =>
      rw [account_cons_of_none hc] at h
      exact ih h

theorem keyId_ne {r : CRegID} {k : CKeyID} (h : keyId db caches r = some k) : k ≠ 0 := by
  induction caches with
  | nil => exact db.mapped r k h
  | cons c base ih =>
    cases hc : c.mapCacheKeyIds.lookup r with
    | some j =>
      rw [keyId_cons_of_some hc] at h
      exact CAccountViewCache.liveKey_ne h
    | none =>
      rw [keyId_cons_of_none hc] at h
      exact ih h

/-- What a cache returns for an entry of its own. -/
theorem ite_liveAccount (a : CAccount) (s : List AccountCache) :
    (if a.cKeyID ≠ 0 then (some a, s) else (none, s)) = (liveAccount a, s) := by
  by_cases h : a.cKeyID = 0
  · rw [if_neg (not_not.mpr h), liveAccount, if_pos h]
  · rw [if_pos h, CAccountViewCache.liveAccount_of_ne h]

theorem ite_liveKey (k : CKeyID) (s : List AccountCache) :
    (if k ≠ 0 then (some k, s) else (none, s)) = (liveKey k, s) := by
  by_cases h : k = 0
  · rw [if_neg (not_not.mpr h), liveKey, if_pos h]
  · rw [if_pos h, CAccountViewCache.liveKey_of_ne h]

/-! ## Stacks that answer alike -/

theorem SameAnswers.refl (db : CAccountViewDB) (caches : List AccountCache) :
    SameAnswers db caches db caches := ⟨fun _ => rfl, fun _ => rfl, rfl⟩

/-- A change below that is not noticed is not noticed above either. -/
theorem SameAnswers.cons (h : SameAnswers db base db base') (c : AccountCache) :
    SameAnswers db (c :: base) db (c :: base') where
  account k := Overlay.resolve_cons_congr rfl fun _ => h.account k
  keyId r := Overlay.resolve_cons_congr rfl fun _ => h.keyId r
  best := by
    unfold getBestBlock
    rw [h.best]

/-- A copy of an account from below. -/
theorem SameAnswers.putAccount (h : SameAnswers db base db base') {k : CKeyID} {a : CAccount}
    (hc : c.mapCacheAccounts.lookup k = none) (ha : AccountStack.account db base k = some a) :
    SameAnswers db (c :: base) db (c.putAccount k a :: base') where
  account := Overlay.resolve_copy (fun j => by
    rw [AccountCache.accountLevel_putAccount]
    by_cases hj : j = k
    · subst hj
      refine .inr ⟨by rw [AccountCache.accountLevel, hc]; rfl, ?_⟩
      rw [if_pos rfl, CAccountViewCache.liveAccount_of_ne (account_ne ha)]
      exact congrArg some ha.symm
    · exact .inl (if_neg hj)) h.account
  keyId r := Overlay.resolve_cons_congr rfl fun _ => h.keyId r
  best := (h.cons c).best

/-- A copy of a key id from below. -/
theorem SameAnswers.putKeyId (h : SameAnswers db base db base') {r : CRegID} {k : CKeyID}
    (hc : c.mapCacheKeyIds.lookup r = none) (hk : AccountStack.keyId db base r = some k) :
    SameAnswers db (c :: base) db (c.putKeyId r k :: base') where
  account j := Overlay.resolve_cons_congr rfl fun _ => h.account j
  keyId := Overlay.resolve_copy (fun s => by
    rw [AccountCache.keyIdLevel_putKeyId]
    by_cases hs : s = r
    · subst hs
      refine .inr ⟨by rw [AccountCache.keyIdLevel, hc]; rfl, ?_⟩
      rw [if_pos rfl, CAccountViewCache.liveKey_of_ne (keyId_ne hk)]
      exact congrArg some hk.symm
    · exact .inl (if_neg hs)) h.keyId
  best := (h.cons c).best

theorem SameAnswers.trans {db₁ db₂ db₃ : CAccountViewDB} {s₁ s₂ s₃ : List AccountCache}
    (h : SameAnswers db₁ s₁ db₂ s₂) (h' : SameAnswers db₂ s₂ db₃ s₃) :
    SameAnswers db₁ s₁ db₃ s₃ where
  account k := (h'.account k).trans (h.account k)
  keyId r := (h'.keyId r).trans (h.keyId r)
  best := h'.best.trans h.best

theorem SameAnswers.accountReg {db' : CAccountViewDB} {caches' : List AccountCache}
    (h : SameAnswers db caches db' caches') (r : CRegID) :
    accountReg db' caches' r = AccountStack.accountReg db caches r := by
  have hacc : AccountStack.account db' caches' = AccountStack.account db caches := funext h.account
  rw [AccountStack.accountReg, AccountStack.accountReg, h.keyId, hacc]

/-! ## Reads -/

theorem getAccount_spec (db : CAccountViewDB) (caches : List AccountCache) (k : CKeyID) :
    (getAccount db caches k).1 = account db caches k ∧
      SameAnswers db caches db (getAccount db caches k).2 := by
  induction caches with
  | nil => exact ⟨rfl, .refl db []⟩
  | cons c base ih =>
    unfold getAccount
    cases hc : c.mapCacheAccounts.lookup k with
    | some a =>
      simp only [ite_liveAccount]
      exact ⟨(account_cons_of_some hc).symm, .refl db _⟩
    | none =>
      obtain ⟨hval, hsame⟩ := ih
      rw [account_cons_of_none hc, ← hval]
      rcases hg : getAccount db base k with ⟨o, base'⟩
      rw [hg] at hval hsame
      cases o with
      | some a => exact ⟨rfl, hsame.putAccount hc hval.symm⟩
      | none => exact ⟨rfl, hsame.cons c⟩

theorem getKeyId_spec (db : CAccountViewDB) (caches : List AccountCache) (r : CRegID) :
    (getKeyId db caches r).1 = keyId db caches r ∧
      SameAnswers db caches db (getKeyId db caches r).2 := by
  induction caches with
  | nil => exact ⟨rfl, .refl db []⟩
  | cons c base ih =>
    unfold getKeyId
    cases hc : c.mapCacheKeyIds.lookup r with
    | some k =>
      simp only [ite_liveKey]
      exact ⟨(keyId_cons_of_some hc).symm, .refl db _⟩
    | none =>
      obtain ⟨hval, hsame⟩ := ih
      rw [keyId_cons_of_none hc, ← hval]
      rcases hg : getKeyId db base r with ⟨o, base'⟩
      rw [hg] at hval hsame
      cases o with
      | some k => exact ⟨rfl, hsame.putKeyId hc hval.symm⟩
      | none => exact ⟨rfl, hsame.cons c⟩

/-- The account behind a registration id, through the copy in the top cache when there is one. -/
theorem getAccountReg_of_key {r : CRegID} {k : CKeyID} (h : keyId db (c :: base) r = some k) :
    accountReg db (c :: base) r = account db (c :: base) k := by
  rw [accountReg, h]
  rfl

theorem accountReg_of_none {r : CRegID} (h : keyId db caches r = none) :
    accountReg db caches r = none := by
  rw [accountReg, h]
  rfl

theorem getAccountReg_spec (db : CAccountViewDB) (caches : List AccountCache) (r : CRegID) :
    (getAccountReg db caches r).1 = accountReg db caches r ∧
      SameAnswers db caches db (getAccountReg db caches r).2 := by
  cases caches with
  | nil =>
    refine ⟨?_, .refl db []⟩
    show db.getAccountReg r = (db.keyIds.lookup r).bind (account db [])
    unfold CAccountViewCache.getAccountReg
    cases db.keyIds.lookup r <;> rfl
  | cons c base =>
    rw [getAccountReg]
    cases hc : c.mapCacheKeyIds.lookup r with
    | some k =>
      have hk : keyId db (c :: base) r = liveKey k := keyId_cons_of_some hc
      dsimp only
      split
      · next hne =>
        rw [CAccountViewCache.liveKey_of_ne hne] at hk
        rw [getAccountReg_of_key hk]
        cases ha : c.mapCacheAccounts.lookup k with
        | some a =>
          simp only [ite_liveAccount]
          exact ⟨(account_cons_of_some ha).symm, .refl db _⟩
        | none =>
          obtain ⟨hval, hsame⟩ := getAccount_spec db base k
          rw [account_cons_of_none ha]
          exact ⟨hval, hsame.cons c⟩
      · next hzero =>
        have hnone : keyId db (c :: base) r = none := by
          rw [hk, not_not.mp hzero]
          rfl
        exact ⟨(accountReg_of_none hnone).symm, .refl db _⟩
    | none =>
      obtain ⟨hval, hsame⟩ := getKeyId_spec db base r
      rcases hg : getKeyId db base r with ⟨o, base'⟩
      rw [hg] at hval hsame
      cases o with
      | none =>
        have hnone : keyId db (c :: base) r = none := (keyId_cons_of_none hc).trans hval.symm
        exact ⟨(accountReg_of_none hnone).symm, hsame.cons c⟩
      | some k =>
        have hk : keyId db (c :: base) r = some k := (keyId_cons_of_none hc).trans hval.symm
        have hcopy := hsame.putKeyId hc hval.symm
        rw [getAccountReg_of_key hk]
        dsimp only
        cases ha : c.mapCacheAccounts.lookup k with
        | some a =>
          simp only [AccountCache.putKeyId, ha, ite_liveAccount]
          exact ⟨(account_cons_of_some ha).symm, hcopy⟩
        | none =>
          obtain ⟨hval', hsame'⟩ := getAccount_spec db base' k
          have hbelow : account db base' k = account db base k := hsame.account k
          rw [account_cons_of_none ha, ← hbelow, ← hval']
          simp only [AccountCache.putKeyId, ha]
          rcases hg' : getAccount db base' k with ⟨o, base''⟩
          rw [hg'] at hval' hsame'
          have htop : (c.putKeyId r k).mapCacheAccounts.lookup k = none := ha
          cases o with
          | some a => exact ⟨rfl, hcopy.trans (hsame'.putAccount htop hval'.symm)⟩
          | none => exact ⟨rfl, hcopy.trans (hsame'.cons _)⟩

/-! ## Writes -/

theorem account_putAccount (c : AccountCache) (k : CKeyID) (a : CAccount) (j : CKeyID) :
    account db (c.putAccount k a :: base) j
      = if j = k then liveAccount a else account db (c :: base) j := by
  have hl := AccountCache.accountLevel_putAccount c k a j
  by_cases hj : j = k
  · rw [if_pos hj] at hl ⊢
    exact Overlay.resolve_cons_of_some hl
  · rw [if_neg hj] at hl ⊢
    exact Overlay.resolve_cons_congr hl fun _ => rfl

theorem keyId_putKeyId (c : AccountCache) (r : CRegID) (k : CKeyID) (s : CRegID) :
    keyId db (c.putKeyId r k :: base) s
      = if s = r then liveKey k else keyId db (c :: base) s := by
  have hl := AccountCache.keyIdLevel_putKeyId c r k s
  by_cases hs : s = r
  · rw [if_pos hs] at hl ⊢
    exact Overlay.resolve_cons_of_some hl
  · rw [if_neg hs] at hl ⊢
    exact Overlay.resolve_cons_congr hl fun _ => rfl

theorem keyId_putAccount (c : AccountCache) (k : CKeyID) (a : CAccount) (r : CRegID) :
    keyId db (c.putAccount k a :: base) r = keyId db (c :: base) r :=
  Overlay.resolve_cons_congr rfl fun _ => rfl

theorem account_putKeyId (c : AccountCache) (r : CRegID) (k j : CKeyID) :
    account db (c.putKeyId r k :: base) j = account db (c :: base) j :=
  Overlay.resolve_cons_congr rfl fun _ => rfl

/-- An erased account is gone, and nothing else. -/
theorem eraseAccount_spec (db : CAccountViewDB) (caches : List AccountCache) (k : CKeyID) :
    let s := eraseAccount db caches k
    (∀ j, account s.2 s.1 j = if j = k then none else account db caches j) ∧
      (∀ r, keyId s.2 s.1 r = keyId db caches r) ∧
      getBestBlock s.2 s.1 = getBestBlock db caches := by
  cases caches with
  | nil =>
    refine ⟨fun j => ?_, fun r => rfl, rfl⟩
    show (db.eraseAccountKey k).accounts.lookup j = _
    rw [CAccountViewCache.eraseAccountKey_accounts, Store.lookup_put]
    rfl
  | cons c base =>
    have hmark : ∀ a : CAccount, liveAccount { a with cKeyID := 0 } = none := fun a => if_pos rfl
    rw [eraseAccount]
    cases hc : c.mapCacheAccounts.lookup k with
    | some a =>
      refine ⟨fun j => ?_, fun r => keyId_putAccount c k _ r, rfl⟩
      dsimp only
      rw [account_putAccount, hmark]
    | none =>
      obtain ⟨hval, hsame⟩ := getAccount_spec db base k
      rcases hg : getAccount db base k with ⟨o, base'⟩
      rw [hg] at hval hsame
      have hcons := hsame.cons c
      cases o with
      | some a =>
        refine ⟨fun j => ?_, fun r => (keyId_putAccount c k _ r).trans (hcons.keyId r), hcons.best⟩
        dsimp only
        rw [account_putAccount, hmark, hcons.account]
      | none =>
        refine ⟨fun j => ?_, hcons.keyId, hcons.best⟩
        dsimp only
        rw [hcons.account]
        split
        · next hj => rw [hj, account_cons_of_none hc, ← hval]
        · rfl

theorem eraseKeyId_spec (db : CAccountViewDB) (caches : List AccountCache) (r : CRegID) :
    let s := eraseKeyId db caches r
    (∀ k, account s.2 s.1 k = account db caches k) ∧
      (∀ q, keyId s.2 s.1 q = if q = r then none else keyId db caches q) ∧
      getBestBlock s.2 s.1 = getBestBlock db caches := by
  cases caches with
  | nil =>
    refine ⟨fun k => rfl, fun q => ?_, rfl⟩
    show (db.eraseKeyId r).keyIds.lookup q = _
    rw [CAccountViewCache.eraseKeyId_keyIds, Store.lookup_put]
    rfl
  | cons c base =>
    have hmark : liveKey 0 = none := if_pos rfl
    rw [eraseKeyId]
    cases hc : c.mapCacheKeyIds.lookup r with
    | some k =>
      refine ⟨fun j => account_putKeyId c r 0 j, fun q => ?_, rfl⟩
      dsimp only
      rw [keyId_putKeyId, hmark]
    | none =>
      obtain ⟨hval, hsame⟩ := getKeyId_spec db base r
      rcases hg : getKeyId db base r with ⟨o, base'⟩
      rw [hg] at hval hsame
      have hcons := hsame.cons c
      cases o with
      | some k =>
        refine ⟨fun j => (account_putKeyId c r 0 j).trans (hcons.account j), fun q => ?_, hcons.best⟩
        dsimp only
        rw [keyId_putKeyId, hmark, hcons.keyId]
      | none =>
        refine ⟨hcons.account, fun q => ?_, hcons.best⟩
        dsimp only
        rw [hcons.keyId]
        split
        · next hq => rw [hq, keyId_cons_of_none hc, ← hval]
        · rfl

end AccountStack

end Dacrs
