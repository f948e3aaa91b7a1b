import Dacrs.AccountFlush

/-!
# A stack of account caches is a flat pair of maps

Runs of the public operations of the top cache, compared with the same operations on the flat
maps the stack stands for (the view of the module AccountView).  They agree as long as
`SetAccount` by registration id is called when the top cache knows the id
(`overlay_refines`); `existence_agrees_iff` says exactly where the existence test and that call
part from the lookups.
-/

open Codec (Bytes)

namespace Dacrs

open CAccountViewCache (liveAccount liveKey)

/-! ## Operations and their answers -/

/-- A call on the top cache of a stack. -/
inductive AccountOp where
  | setAccount (id : CUserID) (a : CAccount)
  | saveAccountInfo (r : CRegID) (k : CKeyID) (a : CAccount)
  | eraseAccount (id : CUserID)
  | eraseId (id : CUserID)
  | setKeyId (id : CUserID) (k : CKeyID)
  | getAccount (id : CUserID)
  | getKeyId (id : CUserID)

/-- What a call returns. -/
inductive AccountAnswer where
  | done (ok : Bool)
  | account (o : Option CAccount)
  | keyId (o : Option CKeyID)
deriving DecidableEq

/-- The outcome of a write that may return false. -/
def AccountAnswer.ofOption {σ : Type} (s : σ) : Option σ → AccountAnswer × σ
  | some s => (.done true, s)
  | none => (.done false, s)

namespace AccountStack

variable (cr : Crypto) (db : CAccountViewDB)

/-- `SetAccount(const CUserID &, …)`. -/
def stepSetAccount (caches : List AccountCache) (a : CAccount) :
    CUserID → AccountAnswer × List AccountCache
  | .regID r => AccountAnswer.ofOption caches (setAccountReg caches r a)
  | .keyID k => (.done true, setAccount caches k a)
  | .pubKey p => (.done true, setAccount caches (p.getKeyID cr) a)
  | .null => (.done false, caches)

/-- `EraseAccount(const CUserID &)`. -/
def stepEraseAccount (caches : List AccountCache) : CUserID → AccountAnswer × List AccountCache
  | .keyID k => (.done true, (eraseAccount db caches k).1)
  | .pubKey p => (.done true, (eraseAccount db caches (p.getKeyID cr)).1)
  | _ => (.done false, caches)

/-- `GetAccount(const CUserID &, …)`. -/
def stepGetAccount (caches : List AccountCache) : CUserID → AccountAnswer × List AccountCache
  | .regID r => let (o, caches) := getAccountReg db caches r; (.account o, caches)
  | .keyID k => let (o, caches) := getAccount db caches k; (.account o, caches)
  | .pubKey p => let (o, caches) := getAccount db caches (p.getKeyID cr); (.account o, caches)
  | .null => (.account none, caches)

/-- `GetKeyId(const CUserID &, …)`. -/
def stepGetKeyId (caches : List AccountCache) : CUserID → AccountAnswer × List AccountCache
  | .regID r => let (o, caches) := getKeyId db caches r; (.keyId o, caches)
  | .keyID k => (.keyId (some k), caches)
  | .pubKey p => (.keyId (some (p.getKeyID cr)), caches)
  | .null => (.keyId none, caches)

/-- One call on a stack of caches. -/
def step (caches : List AccountCache) : AccountOp → AccountAnswer × List AccountCache
  | .setAccount id a => stepSetAccount cr caches a id
  | .saveAccountInfo r k a => (.done true, saveAccountInfo caches r k a)
  | .eraseAccount id => stepEraseAccount cr db caches id
  | .eraseId id => match id with
    | .regID r => (.done true, (eraseKeyId db caches r).1)
    | _ => (.done false, caches)
  | .setKeyId id k => match id with
    | .regID r => (.done true, setKeyId caches r k)
    | _ => (.done false, caches)
  | .getAccount id => stepGetAccount cr db caches id
  | .getKeyId id => stepGetKeyId cr db caches id

end AccountStack

/-- The same call on the flat pair of maps. -/
def CAccountViewCache.step (cr : Crypto) (v : CAccountViewCache) :
    AccountOp → AccountAnswer × CAccountViewCache
  | .setAccount id a => AccountAnswer.ofOption v (v.setAccount cr id a)
  | .saveAccountInfo r k a => (.done true, v.saveAccountInfo r k a)
  | .eraseAccount id => AccountAnswer.ofOption v (v.eraseAccount cr id)
  | .eraseId id => match id with
    | .regID r => (.done true, v.eraseKeyId r)
    | _ => (.done false, v)
  | .setKeyId id k => match id with
    | .regID r => (.done true, v.setKeyId r k)
    | _ => (.done false, v)
  | .getAccount id => (.account (v.getAccount cr id), v)
  | .getKeyId id => (.keyId (v.getKeyId cr id), v)

section
variable {σ : Type} (step : σ → AccountOp → AccountAnswer × σ)

/-- The answers of a sequence of calls. -/
def answers : σ → List AccountOp → List AccountAnswer
  | _, [] => []
  | s, op :: ops => (step s op).1 :: answers (step s op).2 ops

/-- The state after a sequence of calls. -/
def afterOps : σ → List AccountOp → σ
  | s, [] => s
  | s, op :: ops => afterOps (step s op).2 ops

end

namespace AccountStack

/-! ## One step -/

/-- The stack holds exactly what the flat maps hold. -/
def Holds (db : CAccountViewDB) (caches : List AccountCache) (v : CAccountViewCache) : Prop :=
  SameAnswers db caches v []

section
variable {cr : Crypto} {db : CAccountViewDB} {caches caches' : List AccountCache}
  {v : CAccountViewCache}

theorem Holds.account (h : Holds db caches v) (k : CKeyID) :
    account db caches k = v.accounts.lookup k := (SameAnswers.account h k).symm

theorem Holds.keyId (h : Holds db caches v) (r : CRegID) :
    keyId db caches r = v.keyIds.lookup r := (SameAnswers.keyId h r).symm

theorem Holds.best (h : Holds db caches v) : getBestBlock db caches = v.cHashBlock :=
  (SameAnswers.best h).symm

theorem Holds.accountReg (h : Holds db caches v) (r : CRegID) :
    accountReg db caches r = v.getAccountReg r := by
  unfold AccountStack.accountReg CAccountViewCache.getAccountReg
  rw [h.keyId]
  cases v.keyIds.lookup r with
  | none => rfl
  | some k => exact h.account k

/-- A read keeps the correspondence. -/
theorem Holds.read (h : Holds db caches v) (hsame : SameAnswers db caches db caches') :
    Holds db caches' v :=
  ⟨fun k => (SameAnswers.account h k).trans (hsame.account k).symm,
    fun r => (SameAnswers.keyId h r).trans (hsame.keyId r).symm, (SameAnswers.best h).trans hsame.best.symm⟩

theorem Holds.setAccount (h : Holds db caches v) (hne : caches ≠ []) (k : CKeyID) (a : CAccount) :
    Holds db (setAccount caches k a) (v.setAccountKey k a) := by
  cases caches with
  | nil => exact absurd rfl hne
  | cons c base =>
    refine ⟨fun j => ?_, fun r => ?_, (Holds.best h).symm⟩
    · show (v.accounts.put k (liveAccount a)).lookup j = AccountStack.account db (c.putAccount k a :: base) j
      rw [account_putAccount, Store.lookup_put, h.account]
    · exact ((keyId_putAccount c k a r).trans (h.keyId r)).symm

theorem Holds.setKeyId (h : Holds db caches v) (hne : caches ≠ []) (r : CRegID) (k : CKeyID) :
    Holds db (setKeyId caches r k) (v.setKeyId r k) := by
  cases caches with
  | nil => exact absurd rfl hne
  | cons c base =>
    refine ⟨fun j => ?_, fun s => ?_, (Holds.best h).symm⟩
    · exact ((account_putKeyId c r k j).trans (h.account j)).symm
    · show (v.keyIds.put r (liveKey k)).lookup s = AccountStack.keyId db (c.putKeyId r k :: base) s
      rw [keyId_putKeyId, Store.lookup_put, h.keyId]

theorem Holds.saveAccountInfo (h : Holds db caches v) (hne : caches ≠ []) (r : CRegID) (k : CKeyID)
    (a : CAccount) : Holds db (saveAccountInfo caches r k a) (v.saveAccountInfo r k a) := by
  cases caches with
  | nil => exact absurd rfl hne
  | cons c base =>
    exact (h.setKeyId hne r k).setAccount (List.cons_ne_nil _ _) k a

/-- In a stack with a cache an erasure leaves the database alone. -/
theorem eraseAccount_db (hne : caches ≠ []) (k : CKeyID) : (eraseAccount db caches k).2 = db := by
  cases caches with
  | nil => exact absurd rfl hne
  | cons c base =>
    rw [eraseAccount]
    cases c.mapCacheAccounts.lookup k with
    | some a => rfl
    | none =>
      rcases getAccount db base k with ⟨o, base'⟩
      cases o <;> rfl

theorem eraseKeyId_db (hne : caches ≠ []) (r : CRegID) : (eraseKeyId db caches r).2 = db := by
  cases caches with
  | nil => exact absurd rfl hne
  | cons c base =>
    rw [eraseKeyId]
    cases c.mapCacheKeyIds.lookup r with
    | some k => rfl
    | none =>
      rcases getKeyId db base r with ⟨o, base'⟩
      cases o <;> rfl

theorem Holds.eraseAccount (h : Holds db caches v) (hne : caches ≠ []) (k : CKeyID) :
    Holds db (eraseAccount db caches k).1 (v.eraseAccountKey k) := by
  obtain ⟨hacc, hkey, hbest⟩ := eraseAccount_spec db caches k
  rw [eraseAccount_db hne] at hacc hkey hbest
  refine ⟨fun j => ?_, fun r => ((hkey r).trans (h.keyId r)).symm, (hbest.trans (Holds.best h)).symm⟩
  show (v.accounts.put k none).lookup j = _
  rw [hacc, Store.lookup_put, h.account]

theorem Holds.eraseKeyId (h : Holds db caches v) (hne : caches ≠ []) (r : CRegID) :
    Holds db (eraseKeyId db caches r).1 (v.eraseKeyId r) := by
  obtain ⟨hacc, hkey, hbest⟩ := eraseKeyId_spec db caches r
  rw [eraseKeyId_db hne] at hacc hkey hbest
  refine ⟨fun k => ((hacc k).trans (h.account k)).symm, fun q => ?_, (hbest.trans (Holds.best h)).symm⟩
  show (v.keyIds.put r none).lookup q = _
  rw [hkey, Store.lookup_put, h.keyId]

/-- What the top cache itself stores for a registration id. -/
def topKeyId (caches : List AccountCache) (r : CRegID) : Option CKeyID :=
  caches.head?.bind fun c => c.mapCacheKeyIds.lookup r

/-- `SetAccount` by registration id writes under the id the top cache stores. -/
theorem setAccountReg_eq (caches : List AccountCache) (r : CRegID) (a : CAccount) :
    setAccountReg caches r a = (topKeyId caches r).map fun k => setAccount caches k a := by
  cases caches with
  | nil => rfl
  | cons c base =>
    show (c.mapCacheKeyIds.lookup r).map _ = (c.mapCacheKeyIds.lookup r).map _
    rfl

theorem Holds.setAccountReg (h : Holds db caches v) (hne : caches ≠ []) {r : CRegID}
    (htop : topKeyId caches r = v.keyIds.lookup r) (a : CAccount) :
    let s := AccountAnswer.ofOption caches (setAccountReg caches r a)
    let w := AccountAnswer.ofOption v ((v.keyIds.lookup r).map fun k => v.setAccountKey k a)
    s.1 = w.1 ∧ Holds db s.2 w.2 := by
  rw [setAccountReg_eq, htop]
  cases v.keyIds.lookup r with
  | none => exact ⟨rfl, h⟩
  | some k => exact ⟨rfl, h.setAccount hne k a⟩

/-- A call of `SetAccount` by registration id finds in the top cache what the whole stack holds. -/
def KnownOnTop (db : CAccountViewDB) (caches : List AccountCache) (op : AccountOp) : Prop :=
  ∀ r a, op = .setAccount (.regID r) a → topKeyId caches r = keyId db caches r

/-! ### No call changes what lies below -/

/-- One cache over a stack that answers as `base` does. -/
def OneOver (db : CAccountViewDB) (base caches : List AccountCache) : Prop :=
  ∃ c base', caches = c :: base' ∧ SameAnswers db base db base'

theorem OneOver.cons {base base' : List AccountCache} (h : SameAnswers db base db base')
    (c : AccountCache) : OneOver db base (c :: base') := ⟨c, base', rfl, h⟩

section
variable {base : List AccountCache}

theorem getAccount_below (c : AccountCache) (k : CKeyID) :
    OneOver db base (getAccount db (c :: base) k).2 := by
  rw [getAccount]
  cases c.mapCacheAccounts.lookup k with
  | some a =>
    dsimp only
    split <;> exact .cons (.refl db base) c
  | none =>
    have hbelow := (getAccount_spec db base k).2
    rcases hg : getAccount db base k with ⟨o, base'⟩
    rw [hg] at hbelow
    cases o with
    | some a => exact .cons hbelow _
    | none => exact .cons hbelow c

theorem getKeyId_below (c : AccountCache) (r : CRegID) :
    OneOver db base (getKeyId db (c :: base) r).2 := by
  rw [getKeyId]
  cases c.mapCacheKeyIds.lookup r with
  | some k =>
    dsimp only
    split <;> exact .cons (.refl db base) c
  | none =>
    have hbelow := (getKeyId_spec db base r).2
    rcases hg : getKeyId db base r with ⟨o, base'⟩
    rw [hg] at hbelow
    cases o with
    | some k => exact .cons hbelow _
    | none => exact .cons hbelow c

theorem getAccountReg_below (c : AccountCache) (r : CRegID) :
    OneOver db base (getAccountReg db (c :: base) r).2 := by
  rw [getAccountReg]
  cases c.mapCacheKeyIds.lookup r with
  | some k =>
    dsimp only
    split
    · cases c.mapCacheAccounts.lookup k with
      | some a =>
        dsimp only
        split <;> exact .cons (.refl db base) c
      | none => exact .cons (getAccount_spec db base k).2 c
    · exact .cons (.refl db base) c
  | none =>
    have hbelow := (getKeyId_spec db base r).2
    rcases hg : getKeyId db base r with ⟨o, base'⟩
    rw [hg] at hbelow
    cases o with
    | none => exact .cons hbelow c
    | some k =>
      dsimp only
      cases (c.putKeyId r k).mapCacheAccounts.lookup k with
      | some a =>
        dsimp only
        split <;> exact .cons hbelow _
      | none =>
        have hdeep := hbelow.trans (getAccount_spec db base' k).2
        rcases hd : getAccount db base' k with ⟨o, base''⟩
        rw [hd] at hdeep
        cases o with
        | some a => exact .cons hdeep _
        | none => exact .cons hdeep _

theorem eraseAccount_below (c : AccountCache) (k : CKeyID) :
    OneOver db base (eraseAccount db (c :: base) k).1 := by
  rw [eraseAccount]
  cases c.mapCacheAccounts.lookup k with
  | some a => exact .cons (.refl db base) _
  | none =>
    have hbelow := (getAccount_spec db base k).2
    rcases hg : getAccount db base k with ⟨o, base'⟩
    rw [hg] at hbelow
    cases o with
    | some a => exact .cons hbelow _
    | none => exact .cons hbelow c

theorem eraseKeyId_below (c : AccountCache) (r : CRegID) :
    OneOver db base (eraseKeyId db (c :: base) r).1 := by
  rw [eraseKeyId]
  cases c.mapCacheKeyIds.lookup r with
  | some k => exact .cons (.refl db base) _
  | none =>
    have hbelow := (getKeyId_spec db base r).2
    rcases hg : getKeyId db base r with ⟨o, base'⟩
    rw [hg] at hbelow
    cases o with
    | some k => exact .cons hbelow _
    | none => exact .cons hbelow c

theorem setAccountReg_below (c : AccountCache) (r : CRegID) (a : CAccount) :
    OneOver db base
      (AccountAnswer.ofOption (c :: base) (setAccountReg (c :: base) r a)).2 := by
  rw [setAccountReg]
  cases c.mapCacheKeyIds.lookup r with
  | none => exact .cons (.refl db base) c
  | some k => exact .cons (.refl db base) _

/-- Whatever is called, what lies below the top cache answers as before. -/
theorem step_below (c : AccountCache) (op : AccountOp) :
    OneOver db base (step cr db (c :: base) op).2 := by
  have hsame : OneOver db base (c :: base) := .cons (.refl db base) c
  cases op with
  | setAccount id a =>
    cases id with
    | regID r => exact setAccountReg_below c r a
    | keyID k => exact .cons (.refl db base) _
    | pubKey p => exact .cons (.refl db base) _
    | null => exact hsame
  | saveAccountInfo r k a => exact .cons (.refl db base) _
  | eraseAccount id =>
    cases id with
    | keyID k => exact eraseAccount_below c k
    | pubKey p => exact eraseAccount_below c _
    | regID r => exact hsame
    | null => exact hsame
  | eraseId id =>
    cases id with
    | regID r => exact eraseKeyId_below c r
    | keyID k => exact hsame
    | pubKey p => exact hsame
    | null => exact hsame
  | setKeyId id k =>
    cases id with
    | regID r => exact .cons (.refl db base) _
    | keyID k => exact hsame
    | pubKey p => exact hsame
    | null => exact hsame
  | getAccount id =>
    cases id with
    | regID r => exact getAccountReg_below c r
    | keyID k => exact getAccount_below c k
    | pubKey p => exact getAccount_below c _
    | null => exact hsame
  | getKeyId id =>
    cases id with
    | regID r => exact getKeyId_below c r
    | keyID k => exact hsame
    | pubKey p => exact hsame
    | null => exact hsame

/-- However long the top cache is used. -/
theorem afterOps_below (c : AccountCache) (ops : List AccountOp) :
    OneOver db base (afterOps (step cr db) (c :: base) ops) := by
  induction ops generalizing c base with
  | nil => exact .cons (.refl db base) c
  | cons op ops ih =>
    obtain ⟨c', base', hstep, hsame⟩ : OneOver db base (step cr db (c :: base) op).2 :=
      step_below c op
    rw [afterOps, hstep]
    obtain ⟨c'', base'', hrun, hrest⟩ := @ih base' c'
    exact ⟨c'', base'', hrun, hsame.trans hrest⟩

end

theorem step_ne_nil (hne : caches ≠ []) (op : AccountOp) : (step cr db caches op).2 ≠ [] := by
  cases caches with
  | nil => exact absurd rfl hne
  | cons c base =>
    obtain ⟨c', base', hstep, -⟩ : OneOver db base (step cr db (c :: base) op).2 :=
      step_below c op
    rw [hstep]
    exact List.cons_ne_nil c' base'

/-! ### The step -/

/-- One call gives the same answer and keeps the correspondence. -/
theorem Holds.step (h : Holds db caches v) (hne : caches ≠ []) {op : AccountOp}
    (hop : KnownOnTop db caches op) :
    (step cr db caches op).1 = (v.step cr op).1 ∧
      Holds db (AccountStack.step cr db caches op).2 (v.step cr op).2 := by
  cases op with
  | setAccount id a =>
    cases id with
    | null => exact ⟨rfl, h⟩
    | keyID k => exact ⟨rfl, h.setAccount hne k a⟩
    | pubKey p => exact ⟨rfl, h.setAccount hne (p.getKeyID cr) a⟩
    | regID r =>
      exact h.setAccountReg hne ((hop r a rfl).trans (h.keyId r)) a
  | saveAccountInfo r k a => exact ⟨rfl, h.saveAccountInfo hne r k a⟩
  | eraseAccount id =>
    cases id with
    | null => exact ⟨rfl, h⟩
    | regID r => exact ⟨rfl, h⟩
    | keyID k => exact ⟨rfl, h.eraseAccount hne k⟩
    | pubKey p => exact ⟨rfl, h.eraseAccount hne (p.getKeyID cr)⟩
  | eraseId id =>
    cases id with
    | regID r => exact ⟨rfl, h.eraseKeyId hne r⟩
    | null => exact ⟨rfl, h⟩
    | keyID k => exact ⟨rfl, h⟩
    | pubKey p => exact ⟨rfl, h⟩
  | setKeyId id k =>
    cases id with
    | regID r => exact ⟨rfl, h.setKeyId hne r k⟩
    | null => exact ⟨rfl, h⟩
    | keyID _ => exact ⟨rfl, h⟩
    | pubKey p => exact ⟨rfl, h⟩
  | getAccount id =>
    cases id with
    | null => exact ⟨rfl, h⟩
    | regID r =>
      obtain ⟨hval, hsame⟩ := getAccountReg_spec db caches r
      exact ⟨congrArg AccountAnswer.account (hval.trans (h.accountReg r)), h.read hsame⟩
    | keyID k =>
      obtain ⟨hval, hsame⟩ := getAccount_spec db caches k
      exact ⟨congrArg AccountAnswer.account (hval.trans (h.account k)), h.read hsame⟩
    | pubKey p =>
      obtain ⟨hval, hsame⟩ := getAccount_spec db caches (p.getKeyID cr)
      exact ⟨congrArg AccountAnswer.account (hval.trans (h.account _)), h.read hsame⟩
  | getKeyId id =>
    cases id with
    | null => exact ⟨rfl, h⟩
    | regID r =>
      obtain ⟨hval, hsame⟩ := getKeyId_spec db caches r
      exact ⟨congrArg AccountAnswer.keyId (hval.trans (h.keyId r)), h.read hsame⟩
    | keyID k => exact ⟨rfl, h⟩
    | pubKey p => exact ⟨rfl, h⟩

/-! ## Runs -/

/-- Every call of a run is made in a state where `KnownOnTop` holds of it. -/
def RunKnown (cr : Crypto) (db : CAccountViewDB) : List AccountCache → List AccountOp → Prop
  | _, [] => True
  | caches, op :: ops => KnownOnTop db caches op ∧ RunKnown cr db (step cr db caches op).2 ops

theorem afterOps_ne_nil (hne : caches ≠ []) (ops : List AccountOp) :
    afterOps (AccountStack.step cr db) caches ops ≠ [] := by
  induction ops generalizing caches with
  | nil => exact hne
  | cons op ops ih => exact ih (step_ne_nil hne op)

theorem Holds.run (h : Holds db caches v) (hne : caches ≠ []) {ops : List AccountOp}
    (hrun : RunKnown cr db caches ops) :
    answers (AccountStack.step cr db) caches ops = answers (CAccountViewCache.step cr) v ops ∧
      Holds db (afterOps (AccountStack.step cr db) caches ops)
        (afterOps (CAccountViewCache.step cr) v ops) := by
  induction ops generalizing caches v with
  | nil => exact ⟨rfl, h⟩
  | cons op ops ih =>
    obtain ⟨hanswer, hnext⟩ := h.step hne hrun.1
    obtain ⟨hrest, hend⟩ := ih hnext (step_ne_nil hne op) hrun.2
    refine ⟨?_, hend⟩
    rw [answers, answers, hanswer, hrest]

end

/-- A stack with at least one cache gives, call after call, the answers of the flat pair of maps
it was merged into, and stays equal to it, in every run in which `SetAccount` by registration id
is called only when the top cache knows what the stack holds under that id. -/
theorem overlay_refines (cr : Crypto) (db : CAccountViewDB) (c : AccountCache)
    (base : List AccountCache) (ops : List AccountOp) (hrun : RunKnown cr db (c :: base) ops) :
    answers (step cr db) (c :: base) ops
        = answers (CAccountViewCache.step cr) (merged db (c :: base)) ops ∧
      Holds db (afterOps (step cr db) (c :: base) ops)
        (afterOps (CAccountViewCache.step cr) (merged db (c :: base)) ops) :=
  Holds.run (merged_spec db (c :: base)) (List.cons_ne_nil c base) hrun

/-- A run that reads through the id first. -/
theorem overlay_refines_read_first :
    let db := Sample.viewOf [CAccount.fresh 5] [(⟨1, 1⟩, 5)] 7
    let ops := [.getAccount (.regID ⟨1, 1⟩), .setAccount (.regID ⟨1, 1⟩) (CAccount.fresh 5),
      .eraseAccount (.keyID 5), .getAccount (.regID ⟨1, 1⟩)]
    answers (step Sample.crypto db) [.empty] ops
        = answers (CAccountViewCache.step Sample.crypto) (merged db [.empty]) ops ∧
      Holds db (afterOps (step Sample.crypto db) [.empty] ops)
        (afterOps (CAccountViewCache.step Sample.crypto) (merged db [.empty]) ops) := by
  refine overlay_refines Sample.crypto _ .empty [] _ ⟨?_, ?_, ?_, ?_, trivial⟩
  · intro r a h
    cases h
  · intro r a h
    cases h
    decide
  · intro r a h
    cases h
  · intro r a h
    cases h

/-- An empty cache over a database that knows the id: the write is refused. -/
theorem setAccountReg_misses :
    ¬ ∀ (cr : Crypto) (db : CAccountViewDB) (c : AccountCache) (ops : List AccountOp),
      answers (step cr db) [c] ops = answers (CAccountViewCache.step cr) (merged db [c]) ops := by
  intro h
  have hrun := h Sample.crypto (Sample.viewOf [CAccount.fresh 5] [(⟨1, 1⟩, 5)] 7) .empty
    [.setAccount (.regID ⟨1, 1⟩) (CAccount.fresh 5)]
  revert hrun
  decide

/-! ## Existence and writes by registration id -/

/-- The account of the first cache that stores something under a key id. -/
def cached (caches : List AccountCache) (k : CKeyID) : Option CAccount :=
  caches.findSome? fun c => c.mapCacheAccounts.lookup k

/-- A key of the database is longer than a key id, or shorter. -/
theorem haveAccount_db (db : CAccountViewDB) (k : CKeyID) :
    CAccountViewDB.haveAccount db k = false := by
  have hlen := length_uint160Codec_write k
  unfold CAccountViewDB.haveAccount CAccountViewDB.existsKey
  generalize uint160Codec.write k = key at hlen ⊢
  simp only [Bool.or_eq_false_iff, decide_eq_false_iff_not]
  refine ⟨⟨?_, ?_⟩, ?_⟩
  · rintro ⟨j, -, rfl⟩
    simp at hlen
  · rintro ⟨r, -, rfl⟩
    simp [Codec.vecBytes, Codec.vec, Codec.writeAll, Codec.writeCompactSize, Codec.u8, Codec.raw,
      Codec.imap, Codec.leNat, CRegID.length_getVec6] at hlen
  · rintro ⟨-, rfl⟩
    simp at hlen

theorem haveAccount_eq (db : CAccountViewDB) (caches : List AccountCache) (k : CKeyID) :
    haveAccount db caches k = (cached caches k).isSome := by
  induction caches with
  | nil => exact haveAccount_db db k
  | cons c base ih =>
    rw [haveAccount, ih, cached, cached, List.findSome?_cons]
    cases c.mapCacheAccounts.lookup k with
    | some a => rfl
    | none => rfl

theorem account_eq_cached (db : CAccountViewDB) (caches : List AccountCache) (k : CKeyID) :
    account db caches k = match cached caches k with
      | some a => liveAccount a
      | none => db.accounts.lookup k := by
  induction caches with
  | nil => rfl
  | cons c base ih =>
    rw [cached, List.findSome?_cons]
    cases hc : c.mapCacheAccounts.lookup k with
    | some a => exact account_cons_of_some hc
    | none => exact (account_cons_of_none hc).trans ih

/-- `HaveAccount` says whether `GetAccount` would succeed. -/
def ExistsAgrees (db : CAccountViewDB) (caches : List AccountCache) (k : CKeyID) : Prop :=
  haveAccount db caches k = true ↔ (getAccount db caches k).1.isSome = true

/-- `SetAccount` by a registration id succeeds when `GetKeyId` finds the id, and then changes the
account under that key id and nothing else. -/
def SetByIdAgrees (db : CAccountViewDB) (caches : List AccountCache) (r : CRegID) : Prop :=
  ∀ a, match setAccountReg caches r a with
    | none => (getKeyId db caches r).1 = none
    | some caches' => ∃ k, (getKeyId db caches r).1 = some k ∧
      (∀ j, account db caches' j = if j = k then liveAccount a else account db caches j) ∧
      (∀ s, keyId db caches' s = keyId db caches s)

/-- What decides whether `HaveAccount` is right: the first cache with an entry has a live one, or
no cache has one and the database has no account either. -/
def SeenOnlyLive (db : CAccountViewDB) (caches : List AccountCache) (k : CKeyID) : Prop :=
  match cached caches k with
  | some a => a.cKeyID ≠ 0
  | none => db.accounts.lookup k = none

theorem existsAgrees_iff (db : CAccountViewDB) (caches : List AccountCache) (k : CKeyID) :
    ExistsAgrees db caches k ↔ SeenOnlyLive db caches k := by
  rw [ExistsAgrees, SeenOnlyLive, haveAccount_eq, (getAccount_spec db caches k).1, account_eq_cached]
  cases cached caches k with
  | some a =>
    by_cases h : a.cKeyID = 0
    · simp [liveAccount, h]
    · simpa [CAccountViewCache.liveAccount_of_ne h] using h
  | none =>
    cases db.accounts.lookup k <;> simp

theorem setByIdAgrees_iff (db : CAccountViewDB) (c : AccountCache) (base : List AccountCache)
    (r : CRegID) :
    SetByIdAgrees db (c :: base) r ↔ topKeyId (c :: base) r = keyId db (c :: base) r := by
  unfold SetByIdAgrees
  simp only [setAccountReg_eq, (getKeyId_spec db (c :: base) r).1]
  cases topKeyId (c :: base) r with
  | none =>
    constructor
    · intro h
      exact (h (CAccount.fresh 0)).symm
    · intro h _
      exact h.symm
  | some j =>
    constructor
    · intro h
      -- a write that shows at `j`
      obtain ⟨a, ha⟩ : ∃ a, liveAccount a ≠ account db (c :: base) j := by
        cases account db (c :: base) j with
        | none => exact ⟨CAccount.fresh 1, by decide⟩
        | some b => exact ⟨CAccount.fresh 0, by
            intro hb
            cases hb⟩
      obtain ⟨k, hk, hset, -⟩ := h a
      have hj := hset j
      rw [show account db (setAccount (c :: base) j a) j = _ from account_putAccount c j a j,
        if_pos rfl] at hj
      by_cases hjk : j = k
      · rw [hjk, hk]
      · rw [if_neg hjk] at hj
        exact absurd hj ha
    · intro h a
      refine ⟨j, h.symm, fun k => account_putAccount c j a k, fun s => keyId_putAccount c j a s⟩

/-- After any calls on a stack, `HaveAccount` agrees with `GetAccount` exactly for the key ids of
`SeenOnlyLive`, and `SetAccount` by a registration id agrees with `GetKeyId` exactly for the ids
of which the top cache stores what the whole stack holds. -/
theorem existence_agrees_iff (cr : Crypto) (db : CAccountViewDB) (c : AccountCache)
    (base : List AccountCache) (ops : List AccountOp) (k : CKeyID) (r : CRegID) :
    let caches := afterOps (step cr db) (c :: base) ops
    (ExistsAgrees db caches k ↔ SeenOnlyLive db caches k) ∧
      (SetByIdAgrees db caches r ↔ topKeyId caches r = keyId db caches r) := by
  have hne : afterOps (step cr db) (c :: base) ops ≠ [] :=
    afterOps_ne_nil (List.cons_ne_nil c base) ops
  cases hs : afterOps (step cr db) (c :: base) ops with
  | nil => exact absurd hs hne
  | cons c' base' => exact ⟨existsAgrees_iff db _ k, setByIdAgrees_iff db c' base' r⟩

/-- An account and its id that only the database has. -/
theorem existence_disagrees :
    ¬ ∀ (db : CAccountViewDB) (c : AccountCache) (k : CKeyID) (r : CRegID),
      ExistsAgrees db [c] k ∧ SetByIdAgrees db [c] r := by
  intro h
  obtain ⟨hhave, -⟩ := h (Sample.viewOf [CAccount.fresh 5] [(⟨1, 1⟩, 5)] 7) .empty 5 ⟨1, 1⟩
  have hfalse := hhave.mpr (by decide)
  rw [haveAccount_eq] at hfalse
  cases hfalse

end AccountStack

end Dacrs
