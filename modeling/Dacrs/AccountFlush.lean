import Dacrs.AccountStackSpec
import Dacrs.Sample

/-!
# Flushing an account cache

What `BatchWrite` leaves behind, in the database and in another cache.  Writing all caches into
the database one after the other gives a flat pair of maps that answers like the stack
(`merged`).  Flushing a cache into a cache is exact except in two cases: a removal goes through to
what lies below the parent, and a best block that was never set hides the parent's.
-/

open Codec (Bytes)

namespace Dacrs

namespace AccountStack

open CAccountViewCache (liveAccount liveKey)

variable {child parent : AccountCache} {below caches : List AccountCache} {db : CAccountViewDB}

/-! ## Into the database -/

theorem batchWriteDbAccount_eq (db : CAccountViewDB) (e : Σ _ : CKeyID, CAccount) :
    batchWriteDbAccount db e = db.setAccountKey e.1 e.2 := by
  unfold batchWriteDbAccount
  split
  · next h =>
    refine CAccountViewCache.ext_maps ?_ rfl rfl
    rw [CAccountViewCache.eraseAccountKey_accounts, CAccountViewCache.setAccountKey_accounts,
      liveAccount, if_pos h]
  · rfl

theorem batchWriteDbKeyId_eq (db : CAccountViewDB) (e : Σ _ : CRegID, CKeyID) :
    batchWriteDbKeyId db e = db.setKeyId e.1 e.2 := by
  unfold batchWriteDbKeyId
  split
  · next h =>
    refine CAccountViewCache.ext_maps rfl ?_ rfl
    rw [CAccountViewCache.eraseKeyId_keyIds, CAccountViewCache.setKeyId_keyIds, liveKey, if_pos h]
  · rfl

/-- The database answers like the cache over it did. -/
theorem batchWriteDb_spec (child : AccountCache) (db : CAccountViewDB) :
    SameAnswers db [child] (batchWriteDb child db) [] where
  account k := by
    have hloop := Overlay.foldl_keyed batchWriteDbAccount
      (fun (v : CAccountViewDB) k => v.accounts.lookup k) (fun _ a _ => liveAccount a)
      (fun v e j => by
        simp only [batchWriteDbAccount_eq, CAccountViewCache.setAccountKey_accounts,
          Store.lookup_put])
      child.mapCacheAccounts db k
    have hrest := Overlay.foldl_unchanged batchWriteDbKeyId
      (fun (v : CAccountViewDB) => v.accounts) (fun v e => by rw [batchWriteDbKeyId_eq]; rfl)
      child.mapCacheKeyIds.entries (child.mapCacheAccounts.entries.foldl batchWriteDbAccount db)
    have hacc : (batchWriteDb child db).accounts
        = (child.mapCacheAccounts.entries.foldl batchWriteDbAccount db).accounts := by
      unfold batchWriteDb
      dsimp only
      split <;> exact hrest
    show (batchWriteDb child db).accounts.lookup k = _
    rw [hacc, hloop]
    cases hc : child.mapCacheAccounts.lookup k with
    | some a => exact (account_cons_of_some hc).symm
    | none => exact (@account_cons_of_none db child [] k hc).symm
  keyId r := by
    have hloop := Overlay.foldl_keyed batchWriteDbKeyId
      (fun (v : CAccountViewDB) r => v.keyIds.lookup r) (fun _ k _ => liveKey k)
      (fun v e q => by
        simp only [batchWriteDbKeyId_eq, CAccountViewCache.setKeyId_keyIds, Store.lookup_put])
      child.mapCacheKeyIds (child.mapCacheAccounts.entries.foldl batchWriteDbAccount db) r
    have hrest := Overlay.foldl_unchanged batchWriteDbAccount
      (fun (v : CAccountViewDB) => v.keyIds) (fun v e => by rw [batchWriteDbAccount_eq]; rfl)
      child.mapCacheAccounts.entries db
    have hids : (batchWriteDb child db).keyIds
        = (child.mapCacheKeyIds.entries.foldl batchWriteDbKeyId
            (child.mapCacheAccounts.entries.foldl batchWriteDbAccount db)).keyIds := by
      unfold batchWriteDb
      dsimp only
      split <;> rfl
    show (batchWriteDb child db).keyIds.lookup r = _
    rw [hids, hloop]
    cases hc : child.mapCacheKeyIds.lookup r with
    | some k => exact (keyId_cons_of_some hc).symm
    | none =>
      dsimp only
      rw [hrest]
      exact (@keyId_cons_of_none db child [] r hc).symm
  best := by
    have hacc := Overlay.foldl_unchanged batchWriteDbAccount
      (fun (v : CAccountViewDB) => v.cHashBlock)
      (fun v e => by rw [batchWriteDbAccount_eq]; rfl) child.mapCacheAccounts.entries db
    have hkeys := Overlay.foldl_unchanged batchWriteDbKeyId
      (fun (v : CAccountViewDB) => v.cHashBlock)
      (fun v e => by rw [batchWriteDbKeyId_eq]; rfl) child.mapCacheKeyIds.entries
      (child.mapCacheAccounts.entries.foldl batchWriteDbAccount db)
    show (batchWriteDb child db).cHashBlock = if child.cHashBlock = 0 then db.cHashBlock else _
    unfold batchWriteDb
    dsimp only
    split
    · exact hkeys.trans hacc
    · rfl

/-- The flat pair of maps a stack stands for: every cache written into what lies below it. -/
def merged (db : CAccountViewDB) : List AccountCache → CAccountViewDB
  | [] => db
  | c :: base => batchWriteDb c (merged db base)

theorem merged_spec (db : CAccountViewDB) (caches : List AccountCache) :
    SameAnswers db caches (merged db caches) [] := by
  induction caches with
  | nil => exact .refl db []
  | cons c base ih =>
    have hflush := batchWriteDb_spec c (merged db base)
    -- the cache over the flat maps answers like the cache over the stack
    have hover : SameAnswers db (c :: base) (merged db base) [c] :=
      ⟨fun k => Overlay.resolve_cons_congr rfl fun _ => ih.account k,
        fun r => Overlay.resolve_cons_congr rfl fun _ => ih.keyId r, by
          show (if c.cHashBlock = 0 then (merged db base).cHashBlock else _) = _
          rw [show (merged db base).cHashBlock = getBestBlock db base from ih.best]
          rfl⟩
    exact hover.trans hflush

/-! ## Into another cache -/

/-- The accounts of a batch: the parent takes the live ones over, and a removal removes the
account from the parent and from what lies below it. -/
theorem batchWriteAccounts_spec (child parent : AccountCache) (below : List AccountCache)
    (db : CAccountViewDB) (k : CKeyID) :
    let st := child.mapCacheAccounts.entries.foldl batchWriteAccount (parent, below, db)
    (st.1.mapCacheAccounts.lookup k, account st.2.2 st.2.1 k)
      = match child.mapCacheAccounts.lookup k with
        | some a =>
          if a.cKeyID = 0 then (none, none) else (some a, account db below k)
        | none => (parent.mapCacheAccounts.lookup k, account db below k) := by
  have hloop := Overlay.foldl_keyed batchWriteAccount
    (fun st k => (st.1.mapCacheAccounts.lookup k, account st.2.2 st.2.1 k))
    (fun _ a o => if a.cKeyID = 0 then (none, none) else (some a, o.2))
    (fun st e j => by
      obtain ⟨herase, -, -⟩ := eraseAccount_spec st.2.2 st.2.1 e.1
      unfold batchWriteAccount
      by_cases hzero : e.2.cKeyID = 0
      · simp only [if_pos hzero, herase]
        by_cases hj : j = e.1
        · subst hj
          simp
        · simp [hj]
      · simp only [if_neg hzero, AccountCache.putAccount]
        by_cases hj : j = e.1
        · subst hj
          simp
        · simp [hj])
    child.mapCacheAccounts (parent, below, db) k
  refine hloop.trans ?_
  cases child.mapCacheAccounts.lookup k <;> rfl

/-- What a batch of accounts leaves alone. -/
theorem batchWriteAccounts_frame (child parent : AccountCache) (below : List AccountCache)
    (db : CAccountViewDB) :
    let st := child.mapCacheAccounts.entries.foldl batchWriteAccount (parent, below, db)
    st.1.mapCacheKeyIds = parent.mapCacheKeyIds ∧
      keyId st.2.2 st.2.1 = keyId db below ∧ getBestBlock st.2.2 st.2.1 = getBestBlock db below := by
  have hloop := Overlay.foldl_unchanged batchWriteAccount
    (fun st => (st.1.mapCacheKeyIds, keyId st.2.2 st.2.1, getBestBlock st.2.2 st.2.1))
    (fun st e => by
      obtain ⟨-, hkey, hbest⟩ := eraseAccount_spec st.2.2 st.2.1 e.1
      unfold batchWriteAccount
      split
      · dsimp only
        rw [hbest, show keyId _ _ = keyId st.2.2 st.2.1 from funext hkey]
      · rfl)
    child.mapCacheAccounts.entries (parent, below, db)
  simp only [Prod.mk.injEq] at hloop
  exact hloop

/-- The registration ids of a batch. -/
theorem batchWriteKeyIds_spec (child parent : AccountCache) (r : CRegID) :
    let c := child.mapCacheKeyIds.entries.foldl batchWriteKeyId parent
    c.mapCacheKeyIds.lookup r = (child.mapCacheKeyIds.lookup r).or (parent.mapCacheKeyIds.lookup r) ∧
      c.mapCacheAccounts = parent.mapCacheAccounts := by
  have hloop := Overlay.foldl_keyed batchWriteKeyId
    (fun (c : AccountCache) r => c.mapCacheKeyIds.lookup r) (fun _ k _ => some k)
    (fun c e q => by
      unfold batchWriteKeyId AccountCache.putKeyId
      by_cases hq : q = e.1
      · subst hq
        simp
      · simp [hq])
    child.mapCacheKeyIds parent r
  have hrest := Overlay.foldl_unchanged batchWriteKeyId
    (fun (c : AccountCache) => c.mapCacheAccounts) (fun _ _ => rfl)
    child.mapCacheKeyIds.entries parent
  refine ⟨?_, hrest⟩
  rw [hloop]
  cases child.mapCacheKeyIds.lookup r <;> rfl

/-- A cache flushed into another one that lies over `below`: the parent's accounts and registration
ids, and what is left below. -/
theorem batchWrite_spec (child parent : AccountCache) (below : List AccountCache)
    (db : CAccountViewDB) :
    let st := batchWrite child parent below db
    (∀ k, account st.2.2 (st.1 :: st.2.1) k = account db (child :: parent :: below) k) ∧
      (∀ r, keyId st.2.2 (st.1 :: st.2.1) r = keyId db (child :: parent :: below) r) ∧
      (∀ k, account st.2.2 st.2.1 k
        = if (child.mapCacheAccounts.lookup k).map CAccount.cKeyID = some 0 then none
          else account db below k) ∧
      (∀ r, keyId st.2.2 st.2.1 r = keyId db below r) ∧
      getBestBlock st.2.2 st.2.1 = getBestBlock db below ∧
      st.1.cHashBlock = child.cHashBlock := by
  have hacc := batchWriteAccounts_spec child parent below db
  obtain ⟨hframe, hkeys, hbest⟩ := batchWriteAccounts_frame child parent below db
  unfold batchWrite
  dsimp only at hacc hframe hkeys hbest ⊢
  generalize hst : child.mapCacheAccounts.entries.foldl batchWriteAccount (parent, below, db) = st
    at hacc hframe hkeys hbest ⊢
  obtain ⟨p, below', db'⟩ := st
  dsimp only at hacc hframe hkeys hbest ⊢
  have hids := batchWriteKeyIds_spec child p
  dsimp only at hids
  generalize child.mapCacheKeyIds.entries.foldl batchWriteKeyId p = q at hids ⊢
  have hq : q.mapCacheAccounts = p.mapCacheAccounts := (hids default).2
  refine ⟨fun k => ?_, fun r => ?_, fun k => ?_, fun r => congrFun hkeys r, hbest, rfl⟩
  · have hk := hacc k
    cases hc : child.mapCacheAccounts.lookup k with
    | some a =>
      rw [hc] at hk
      rw [account_cons_of_some hc]
      by_cases hzero : a.cKeyID = 0
      · simp only [if_pos hzero, Prod.mk.injEq] at hk
        have hnone : q.mapCacheAccounts.lookup k = none := by
          rw [hq]
          exact hk.1
        refine (account_cons_of_none hnone).trans ?_
        rw [hk.2, liveAccount, if_pos hzero]
      · simp only [if_neg hzero, Prod.mk.injEq] at hk
        have hsome : q.mapCacheAccounts.lookup k = some a := by
          rw [hq]
          exact hk.1
        exact account_cons_of_some hsome
    | none =>
      rw [hc, Prod.mk.injEq] at hk
      have hp : q.mapCacheAccounts.lookup k = parent.mapCacheAccounts.lookup k := by
        rw [hq]
        exact hk.1
      rw [account_cons_of_none hc]
      refine Overlay.resolve_cons_congr ?_ fun _ => hk.2
      simp only [AccountCache.accountLevel, hp]
  · rw [hframe] at hids
    have hr := (hids r).1
    have htop : q.keyIdLevel r = Overlay.merge child.keyIdLevel parent.keyIdLevel r := by
      simp only [AccountCache.keyIdLevel, Overlay.merge, hr]
      cases child.mapCacheKeyIds.lookup r <;> rfl
    exact (Overlay.resolve_cons_congr htop fun _ => congrFun hkeys r).trans Overlay.resolve_merge
  · have hk := hacc k
    cases hc : child.mapCacheAccounts.lookup k with
    | some a =>
      rw [hc] at hk
      by_cases hzero : a.cKeyID = 0
      · simp only [if_pos hzero, Prod.mk.injEq] at hk
        rw [if_pos (by rw [Option.map_some, hzero])]
        exact hk.2
      · simp only [if_neg hzero, Prod.mk.injEq] at hk
        have hne : ¬ Option.map CAccount.cKeyID (some a) = some 0 := fun h => hzero (Option.some.inj h)
        rw [if_neg hne]
        exact hk.2
    | none =>
      rw [hc, Prod.mk.injEq] at hk
      have hne : ¬ Option.map CAccount.cKeyID none = some 0 := by simp
      rw [if_neg hne]
      exact hk.2

/-! ## When a flush is a refinement step -/

/-- After the flush of `child` the parent answers as `child` did, and what lies below the parent
answers as before. -/
def FlushRefines (child parent : AccountCache) (below : List AccountCache) (db : CAccountViewDB) :
    Prop :=
  ∀ child' parent' below' db',
    flush (child :: parent :: below) db = (child' :: parent' :: below', db') →
      SameAnswers db (child :: parent :: below) db' (parent' :: below') ∧
        SameAnswers db below db' below'

/-- A flush is a refinement step exactly when no removal in `child` meets an account that lies
below the parent, and `child` has a best block of its own or the parent adds none to what lies
below it. -/
theorem flushRefines_iff (child parent : AccountCache) (below : List AccountCache)
    (db : CAccountViewDB) :
    FlushRefines child parent below db ↔
      (∀ k a, child.mapCacheAccounts.lookup k = some a → a.cKeyID = 0 →
        account db below k = none) ∧
      (child.cHashBlock = 0 → getBestBlock db (parent :: below) = getBestBlock db below) := by
  obtain ⟨hacc, hkey, hbelow, hbelowKey, hbest, hhash⟩ := batchWrite_spec child parent below db
  have hflush : flush (child :: parent :: below) db
      = ({ child with mapCacheAccounts := ∅, mapCacheKeyIds := ∅ } ::
          (batchWrite child parent below db).1 :: (batchWrite child parent below db).2.1,
        (batchWrite child parent below db).2.2) := rfl
  generalize batchWrite child parent below db = st at *
  obtain ⟨parent', below', db'⟩ := st
  dsimp only at hacc hkey hbelow hbelowKey hbest hhash hflush
  -- the best block the parent answers afterwards
  have hafter : getBestBlock db' (parent' :: below')
      = if child.cHashBlock = 0 then getBestBlock db below else child.cHashBlock := by
    rw [getBestBlock, hhash, hbest]
  have hbefore : getBestBlock db (child :: parent :: below)
      = if child.cHashBlock = 0 then getBestBlock db (parent :: below) else child.cHashBlock := rfl
  constructor
  · intro h
    obtain ⟨hanswers, hrest⟩ := h _ _ _ _ hflush
    refine ⟨fun k a hk hzero => ?_, fun hzero => ?_⟩
    · have hsame := hrest.account k
      rw [hbelow, hk, Option.map_some, hzero, if_pos rfl] at hsame
      exact hsame.symm
    · have hsame := hanswers.best
      rw [hafter, hbefore, if_pos hzero, if_pos hzero] at hsame
      exact hsame.symm
  · rintro ⟨hmarks, hhashes⟩ child₁ parent₁ below₁ db₁ h
    rw [hflush] at h
    simp only [Prod.mk.injEq, List.cons.injEq] at h
    obtain ⟨⟨-, rfl, rfl⟩, rfl⟩ := h
    constructor
    · refine ⟨hacc, hkey, ?_⟩
      rw [hafter, hbefore]
      by_cases hzero : child.cHashBlock = 0
      · rw [if_pos hzero, if_pos hzero, hhashes hzero]
      · rw [if_neg hzero, if_neg hzero]
    · refine ⟨fun k => ?_, hbelowKey, hbest⟩
      rw [hbelow]
      cases hc : child.mapCacheAccounts.lookup k with
      | none => rfl
      | some a =>
        by_cases hzero : a.cKeyID = 0
        · rw [hmarks k a hc hzero, ite_self]
        · have hne : ¬ Option.map CAccount.cKeyID (some a) = some 0 :=
            fun h => hzero (Option.some.inj h)
          rw [if_neg hne]

/-- An account erased in a cache over a cache: the erasure reaches the database with the first
flush. -/
theorem flush_erases_below :
    ¬ ∀ (child parent : AccountCache) (db : CAccountViewDB), FlushRefines child parent [] db := by
  intro h
  let a : CAccount := { CAccount.fresh 5 with ullValues := 1000 }
  let db := Sample.viewOf [a] [] 7
  let child := (eraseAccount db [.empty, .empty] 5).1.headD .empty
  have hrest := (h child .empty db _ _ _ _ rfl).2.account 5
  have hgone : (none : Option CAccount) = some a := hrest
  cases hgone

end AccountStack

end Dacrs
