import Dacrs.AccountView
import Dacrs.Lib.Overlay

/-!
# The account caches, level by level

The objects behind an account view: `CAccountViewCache`s one over the other and `CAccountViewDB`
at the bottom, with the operations as each class codes them.  A cached account whose key id is
zero marks a removed account, a cached key id that is zero a removed registration id, and a zero
best block says nothing.  A read leaves copies of what it found in the caches it went through.

The database is a plain pair of maps, so it has the type of the view of the module AccountView;
there `CAccountViewCache` is what such a stack answers, here `AccountCache` is one object of it.
A registration id as a vector is always the six bytes of a `CRegID`, so caches are keyed by
`CRegID`.
-/

open Codec (Bytes)

namespace Dacrs

abbrev CAccountViewDB := CAccountViewCache

/-- The members of one `CAccountViewCache`. -/
structure AccountCache where
  cHashBlock : Uint256
  mapCacheAccounts : AList fun _ : CKeyID => CAccount
  mapCacheKeyIds : AList fun _ : CRegID => CKeyID

namespace AccountCache

/-- The constructor. -/
def empty : AccountCache := ⟨0, ∅, ∅⟩

def putAccount (c : AccountCache) (k : CKeyID) (a : CAccount) : AccountCache :=
  { c with mapCacheAccounts := c.mapCacheAccounts.insert k a }

def putKeyId (c : AccountCache) (r : CRegID) (k : CKeyID) : AccountCache :=
  { c with mapCacheKeyIds := c.mapCacheKeyIds.insert r k }

end AccountCache

/-! ## The database -/

namespace CAccountViewDB

/-- `m_cLevelDBWrapper.Exists`: an account lies under 'k' and its key id, a registration id under
'a' and its vector, the best block under 'B'. -/
def existsKey (db : CAccountViewDB) (key : Bytes) : Bool :=
  decide (∃ k ∈ db.accounts.keys, 107 :: uint160Codec.write k = key) ||
    decide (∃ r ∈ db.keyIds.keys, 97 :: vchCodec.write r.getVec6 = key) ||
    decide (db.cHashBlock ≠ 0 ∧ key = [66])

/-- `HaveAccount` asks for the bare key id. -/
def haveAccount (db : CAccountViewDB) (k : CKeyID) : Bool := existsKey db (uint160Codec.write k)

end CAccountViewDB

/-! ## Reading -/

namespace AccountStack

section
variable (db : CAccountViewDB)

/-- `GetAccount(const CKeyID &, …)`, and the caches after it. -/
def getAccount : List AccountCache → CKeyID → Option CAccount × List AccountCache
  | [], k => (db.accounts.lookup k, [])
  | c :: base, k =>
    match c.mapCacheAccounts.lookup k with
    | some a => if a.cKeyID ≠ 0 then (some a, c :: base) else (none, c :: base)
    | none => match getAccount base k with
      | (some a, base) => (some a, c.putAccount k a :: base)
      | (none, base) => (none, c :: base)

/-- `GetKeyId(vector, …)`. -/
def getKeyId : List AccountCache → CRegID → Option CKeyID × List AccountCache
  | [], r => (db.keyIds.lookup r, [])
  | c :: base, r =>
    match c.mapCacheKeyIds.lookup r with
    | some k => if k ≠ 0 then (some k, c :: base) else (none, c :: base)
    | none => match getKeyId base r with
      | (some k, base) => (some k, c.putKeyId r k :: base)
      | (none, base) => (none, c :: base)

/-- `GetAccount(vector, …)`. -/
def getAccountReg : List AccountCache → CRegID → Option CAccount × List AccountCache
  | [], r => (db.getAccountReg r, [])
  | c :: base, r =>
    match c.mapCacheKeyIds.lookup r with
    | some k =>
      if k ≠ 0 then match c.mapCacheAccounts.lookup k with
        | some a => if a.cKeyID ≠ 0 then (some a, c :: base) else (none, c :: base)
        | none => match getAccount db base k with
          -- found below, but not kept in this cache
          | (o, base) => (o, c :: base)
      else (none, c :: base)
    | none => match getKeyId db base r with
      | (none, base) => (none, c :: base)
      | (some k, base) =>
        let c := c.putKeyId r k
        match c.mapCacheAccounts.lookup k with
        | some a => if a.cKeyID ≠ 0 then (some a, c :: base) else (none, c :: base)
        | none => match getAccount db base k with
          | (some a, base) => (some a, c.putAccount k a :: base)
          | (none, base) => (none, c :: base)

/-- `HaveAccount(const CKeyID &)`. -/
def haveAccount : List AccountCache → CKeyID → Bool
  | [], k => CAccountViewDB.haveAccount db k
  | c :: base, k => (c.mapCacheAccounts.lookup k).isSome || haveAccount base k

/-- `GetBestBlock`. -/
def getBestBlock : List AccountCache → Uint256
  | [] => db.cHashBlock
  | c :: base => if c.cHashBlock = 0 then getBestBlock base else c.cHashBlock

/-! ## Erasing -/

/-- `EraseAccount(const CKeyID &)`: only the database removes, a cache marks. -/
def eraseAccount : List AccountCache → CKeyID → List AccountCache × CAccountViewDB
  | [], k => ([], db.eraseAccountKey k)
  | c :: base, k =>
    match c.mapCacheAccounts.lookup k with
    | some a => (c.putAccount k { a with cKeyID := 0 } :: base, db)
    | none => match getAccount db base k with
      | (some a, base) => (c.putAccount k { a with cKeyID := 0 } :: base, db)
      | (none, base) => (c :: base, db)

/-- `EraseKeyId(vector)`. -/
def eraseKeyId : List AccountCache → CRegID → List AccountCache × CAccountViewDB
  | [], r => ([], db.eraseKeyId r)
  | c :: base, r =>
    match c.mapCacheKeyIds.lookup r with
    | some _ => (c.putKeyId r 0 :: base, db)
    | none => match getKeyId db base r with
      | (some _, base) => (c.putKeyId r 0 :: base, db)
      | (none, base) => (c :: base, db)

end

/-! ## Writing to the top cache -/

def onTop (f : AccountCache → AccountCache) : List AccountCache → List AccountCache
  | [] => []
  | c :: base => f c :: base

/-- `SetAccount(const CKeyID &, …)`. -/
def setAccount (caches : List AccountCache) (k : CKeyID) (a : CAccount) : List AccountCache :=
  onTop (·.putAccount k a) caches

/-- `SetAccount(vector, …)` looks for the registration id in its own cache only; `none` is
`return false`. -/
def setAccountReg : List AccountCache → CRegID → CAccount → Option (List AccountCache)
  | [], _, _ => none
  | c :: base, r, a => (c.mapCacheKeyIds.lookup r).map fun k => c.putAccount k a :: base

/-- `SetKeyId(vector, …)`. -/
def setKeyId (caches : List AccountCache) (r : CRegID) (k : CKeyID) : List AccountCache :=
  onTop (·.putKeyId r k) caches

/-- `SaveAccountInfo`. -/
def saveAccountInfo (caches : List AccountCache) (r : CRegID) (k : CKeyID) (a : CAccount) :
    List AccountCache :=
  onTop (fun c => (c.putKeyId r k).putAccount k a) caches

/-! ## Flushing -/

/-- One account of a `BatchWrite` into a cache that lies over `below`: a removal is passed on to
what lies below at once. -/
def batchWriteAccount (st : AccountCache × List AccountCache × CAccountViewDB)
    (e : Σ _ : CKeyID, CAccount) : AccountCache × List AccountCache × CAccountViewDB :=
  if e.2.cKeyID = 0 then
    let below := eraseAccount st.2.2 st.2.1 e.1
    ({ st.1 with mapCacheAccounts := st.1.mapCacheAccounts.erase e.1 }, below)
  else (st.1.putAccount e.1 e.2, st.2)

/-- One registration id of a `BatchWrite`. -/
def batchWriteKeyId (c : AccountCache) (e : Σ _ : CRegID, CKeyID) : AccountCache :=
  c.putKeyId e.1 e.2

/-- `BatchWrite` of the members of `child` into `parent`, which lies over `below`. -/
def batchWrite (child parent : AccountCache) (below : List AccountCache) (db : CAccountViewDB) :
    AccountCache × List AccountCache × CAccountViewDB :=
  let st := child.mapCacheAccounts.entries.foldl batchWriteAccount (parent, below, db)
  let parent := child.mapCacheKeyIds.entries.foldl batchWriteKeyId st.1
  ({ parent with cHashBlock := child.cHashBlock }, st.2)

/-- One entry of a `BatchWrite` into the database. -/
def batchWriteDbAccount (db : CAccountViewDB) (e : Σ _ : CKeyID, CAccount) : CAccountViewDB :=
  if e.2.cKeyID = 0 then db.eraseAccountKey e.1 else db.setAccountKey e.1 e.2

def batchWriteDbKeyId (db : CAccountViewDB) (e : Σ _ : CRegID, CKeyID) : CAccountViewDB :=
  if e.2 = 0 then db.eraseKeyId e.1 else db.setKeyId e.1 e.2

/-- `CAccountViewDB::BatchWrite`. -/
def batchWriteDb (child : AccountCache) (db : CAccountViewDB) : CAccountViewDB :=
  let db := child.mapCacheAccounts.entries.foldl batchWriteDbAccount db
  let db := child.mapCacheKeyIds.entries.foldl batchWriteDbKeyId db
  if child.cHashBlock = 0 then db else db.setBestBlock child.cHashBlock

/-- `Flush` of the first cache; it is left empty, but for its best block. -/
def flush : List AccountCache → CAccountViewDB → List AccountCache × CAccountViewDB
  | [], db => ([], db)
  | [child], db => ([{ child with mapCacheAccounts := ∅, mapCacheKeyIds := ∅ }], batchWriteDb child db)
  | child :: parent :: below, db =>
    let st := batchWrite child parent below db
    ({ child with mapCacheAccounts := ∅, mapCacheKeyIds := ∅ } :: st.1 :: st.2.1, st.2.2)

end AccountStack

/-! ## What a stack answers -/

namespace AccountCache

/-- What a cache says of each key id, and of each registration id. -/
def accountLevel (c : AccountCache) : Overlay.Level CKeyID CAccount := fun k =>
  (c.mapCacheAccounts.lookup k).map CAccountViewCache.liveAccount

def keyIdLevel (c : AccountCache) : Overlay.Level CRegID CKeyID := fun r =>
  (c.mapCacheKeyIds.lookup r).map CAccountViewCache.liveKey

theorem accountLevel_putAccount (c : AccountCache) (k : CKeyID) (a : CAccount) (j : CKeyID) :
    (c.putAccount k a).accountLevel j
      = if j = k then some (CAccountViewCache.liveAccount a) else c.accountLevel j := by
  unfold accountLevel putAccount
  by_cases h : j = k
  · subst h
    simp
  · simp [h]

@[simp] theorem keyIdLevel_putAccount (c : AccountCache) (k : CKeyID) (a : CAccount) :
    (c.putAccount k a).keyIdLevel = c.keyIdLevel := rfl

theorem keyIdLevel_putKeyId (c : AccountCache) (r : CRegID) (k : CKeyID) (s : CRegID) :
    (c.putKeyId r k).keyIdLevel s
      = if s = r then some (CAccountViewCache.liveKey k) else c.keyIdLevel s := by
  unfold keyIdLevel putKeyId
  by_cases h : s = r
  · subst h
    simp
  · simp [h]

@[simp] theorem accountLevel_putKeyId (c : AccountCache) (r : CRegID) (k : CKeyID) :
    (c.putKeyId r k).accountLevel = c.accountLevel := rfl

end AccountCache

namespace AccountStack

/-- The account a stack holds under a key id. -/
def account (db : CAccountViewDB) (caches : List AccountCache) : CKeyID → Option CAccount :=
  Overlay.resolve db.accounts.lookup (caches.map AccountCache.accountLevel)

/-- The key id a stack holds under a registration id. -/
def keyId (db : CAccountViewDB) (caches : List AccountCache) : CRegID → Option CKeyID :=
  Overlay.resolve db.keyIds.lookup (caches.map AccountCache.keyIdLevel)

/-- The account behind a registration id. -/
def accountReg (db : CAccountViewDB) (caches : List AccountCache) (r : CRegID) : Option CAccount :=
  (keyId db caches r).bind (account db caches)

/-- Two stacks that answer every question alike. -/
structure SameAnswers (db : CAccountViewDB) (caches : List AccountCache) (db' : CAccountViewDB)
    (caches' : List AccountCache) : Prop where
  account : ∀ k, account db' caches' k = AccountStack.account db caches k
  keyId : ∀ r, keyId db' caches' r = AccountStack.keyId db caches r
  best : getBestBlock db' caches' = getBestBlock db caches

end AccountStack

end Dacrs
