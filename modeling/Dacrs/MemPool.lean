import Dacrs.Lib.Admission
import Dacrs.Lib.Calls
import Dacrs.Lib.Cursor
import Dacrs.SampleChain

/-!
# The memory pool

`CTxMemPool` keeps its transactions in the order of their hashes, and views of its own over those of
the tip.  `CheckTxInMemPool` executes a transaction on the pool's views and keeps what it did there;
`ReScanMemPoolTx` starts again from the tip and drops what does not execute any more.

`memPool_holds`: after a rescan the pool executes in its order and its views are what that leads to, and
another rescan changes nothing.  A transaction that is accepted later is executed last but put where its
hash belongs, so the pool stays like this exactly if that makes no difference.
-/

open Codec (Bytes)

namespace Dacrs

/-! ## The pool -/

/-- The part of an entry that validation uses: the transaction, and its `m_nFuelRate`. -/
structure CTxMemPoolEntry where
  pTx : CBaseTransaction
  nFuelRate : Int32

/-- The order of a `map<uint256, …>`, that of `memcmp`. -/
def HashLe (a b : Uint256) : Prop := uint256Codec.write a ≤ uint256Codec.write b

instance decidableHashLe : DecidableRel HashLe := fun a b =>
  inferInstanceAs (Decidable (uint256Codec.write a ≤ uint256Codec.write b))

/-- An entry under its hash. -/
abbrev PoolItem := Uint256 × CTxMemPoolEntry

/-- The order of the items. -/
def ItemLe (p q : PoolItem) : Prop := HashLe p.1 q.1

instance decidableItemLe : DecidableRel ItemLe := fun p q =>
  inferInstanceAs (Decidable (uint256Codec.write p.1 ≤ uint256Codec.write q.1))

instance totalItemLe : Std.Total ItemLe :=
  ⟨fun p q => le_total (uint256Codec.write p.1) (uint256Codec.write q.1)⟩

instance transItemLe : IsTrans PoolItem ItemLe := ⟨fun _ _ _ hpq hqr => le_trans hpq hqr⟩

structure CTxMemPool where
  /-- `m_mapTx`, in its order -/
  mapTx : List PoolItem
  /-- `*m_pAccountViewCache` and `*m_pScriptDBViewCache` -/
  views : Views
  sorted : mapTx.Pairwise ItemLe
  nodup : (mapTx.map Prod.fst).Nodup

namespace CTxMemPoolEntry

/-- `m_nFuelRate` after an execution: a contract call looks it up the first time. -/
def rateAfter (node : Node) (e : CTxMemPoolEntry) (s : CScriptDBViewCache) : Int32 :=
  if e.pTx.chTxType = .contract then getFuelRate node s (e.pTx.getHash node.cr.Hash) e.nFuelRate
  else e.nFuelRate

end CTxMemPoolEntry

namespace CTxMemPool

section
variable (node : Node) (cache : CTransactionDBCache)

/-- `CheckTxInMemPool`: the pool's views and the entry after it.  `cache` is `*g_pTxCacheTip`. -/
def checkTxInMemPool (cHash : Uint256) (e : CTxMemPoolEntry) (bExcute : Bool) (vs : Views) :
    Exec (Views × CTxMemPoolEntry) := do
  Exec.require (¬ cache.isContainTx cHash) (Exec.invalid rejectInvalid "tx-duplicate-confirmed")
  let tip ← Exec.ofOption node.chainActive.head? (Exec.throw "g_cChainActive.Tip() is NULL")
  Exec.require (e.pTx.isValidHeight tip.nHeight node.cfg.nTxCacheHeight)
    (Exec.invalid rejectInvalid "tx-invalid-height")
  if bExcute then do
    let x ← e.pTx.executeTx node 0 (Int32.ofInt (tip.nHeight + 1)).toInt e.nFuelRate vs
    return (x.views, { e with nFuelRate := e.rateAfter node vs.scriptDB })
  else return (vs, e)

/-- One turn of the loop of `ReScanMemPoolTx`: what is kept so far, and the views. -/
def scanTx (st : List PoolItem × Views) (p : PoolItem) : Exec (List PoolItem × Views) :=
  match checkTxInMemPool node cache p.1 p.2 true st.2 with
  | .ok (vs, e) => .ok (st.1 ++ [(p.1, e)], vs)
  | .error (.fail _) => .ok st
  | .error (.throw what) => .error (.throw what)

/-- What the check does to the views and the item, if it returns true. -/
def admits (vs : Views) (p : PoolItem) : Option (Views × PoolItem) :=
  match checkTxInMemPool node cache p.1 p.2 true vs with
  | .ok (vs', e) => some (vs', (p.1, e))
  | .error _ => none

end

/-! ## One check -/

section
variable {node : Node} {cache : CTransactionDBCache} {vs vs' : Views} {p p' : PoolItem}
  {cHash : Uint256} {e e' : CTxMemPoolEntry}

theorem getFuelRate_again (s : CScriptDBViewCache) (hash : Uint256) (nFuelRate : Int32) :
    getFuelRate node s hash (getFuelRate node s hash nFuelRate) = getFuelRate node s hash nFuelRate := by
  by_cases h : getFuelRate node s hash nFuelRate = 0
  · by_cases hzero : nFuelRate = 0
    · rw [hzero] at h ⊢
      rw [h]
      exact h
    · have hset : getFuelRate node s hash nFuelRate = nFuelRate := if_neg hzero
      rw [hset] at h
      exact absurd h hzero
  · exact if_neg h

/-- The rate that was looked up leads to the same execution. -/
theorem executeTx_rateAfter (nIndex nHeight : ℤ) (vs : Views) (e : CTxMemPoolEntry) :
    e.pTx.executeTx node nIndex nHeight (e.rateAfter node vs.scriptDB) vs
      = e.pTx.executeTx node nIndex nHeight e.nFuelRate vs := by
  unfold CTxMemPoolEntry.rateAfter
  split
  · next htype =>
    cases htx : e.pTx with
    | reward tx => rfl
    | registerAccount tx => rfl
    | registerApp tx => rfl
    | transaction tx =>
      show tx.executeTx node nIndex nHeight _ vs = tx.executeTx node nIndex nHeight _ vs
      unfold CTransaction.executeTx CTransaction.executeByType CTransaction.executeContract
      simp only [getFuelRate_again, CBaseTransaction.getHash]
  · rfl

/-- What a check that returns true has found and done. -/
theorem checkTxInMemPool_eq_ok : checkTxInMemPool node cache cHash e true vs = .ok (vs', e') ↔
    cache.isContainTx cHash = false ∧ ∃ tip, node.chainActive.head? = some tip ∧
      e.pTx.isValidHeight tip.nHeight node.cfg.nTxCacheHeight = true ∧
      ∃ x, e.pTx.executeTx node 0 (Int32.ofInt (tip.nHeight + 1)).toInt e.nFuelRate vs = .ok x ∧
        vs' = x.views ∧ e' = { e with nFuelRate := e.rateAfter node vs.scriptDB } := by
  unfold checkTxInMemPool
  simp only [Except.bind_eq_ok, Exec.require_eq_ok (Exec.fails_doS _ _ _ _), Exec.invalid,
    Exec.ofOption_eq_ok (Exec.fails_throw _), if_true, Bool.not_eq_true]
  constructor
  · rintro ⟨-, hcache, tip, htip, -, hvalid, x, hx, hpure⟩
    obtain ⟨rfl, rfl⟩ := Prod.mk.inj (Except.ok.inj hpure)
    exact ⟨hcache, tip, htip, hvalid, x, hx, rfl, rfl⟩
  · rintro ⟨hcache, tip, htip, hvalid, x, hx, rfl, rfl⟩
    exact ⟨(), hcache, tip, htip, (), hvalid, x, hx, rfl⟩

theorem admits_eq_some : admits node cache vs p = some (vs', p') ↔
    ∃ e', checkTxInMemPool node cache p.1 p.2 true vs = .ok (vs', e') ∧ p' = (p.1, e') := by
  unfold admits
  cases hcheck : checkTxInMemPool node cache p.1 p.2 true vs with
  | error x =>
    constructor
    · intro h
      cases h
    · rintro ⟨e', h, -⟩
      cases h
  | ok r =>
    constructor
    · intro h
      obtain ⟨hviews, hitem⟩ := Prod.mk.inj (Option.some.inj h)
      exact ⟨r.2, by rw [← hviews], hitem.symm⟩
    · rintro ⟨e', h, rfl⟩
      obtain rfl := Except.ok.inj h
      rfl

/-- The transaction behind a hash. -/
def itemTx (p : PoolItem) : Uint256 × CBaseTransaction := (p.1, p.2.pTx)

theorem keeps_admits (node : Node) (cache : CTransactionDBCache) :
    Admission.Keeps (admits node cache) itemTx := by
  intro vs p vs' p' h
  obtain ⟨e', hcheck, rfl⟩ := admits_eq_some.mp h
  obtain ⟨-, tip, -, -, x, -, -, rfl⟩ := checkTxInMemPool_eq_ok.mp hcheck
  rfl

theorem settles_admits (node : Node) (cache : CTransactionDBCache) :
    Admission.Settles (admits node cache) := by
  intro vs p vs' p' h
  obtain ⟨e', hcheck, rfl⟩ := admits_eq_some.mp h
  obtain ⟨hcache, tip, htip, hvalid, x, hx, rfl, rfl⟩ := checkTxInMemPool_eq_ok.mp hcheck
  refine admits_eq_some.mpr ⟨{ p.2 with nFuelRate := p.2.rateAfter node vs.scriptDB }, ?_, rfl⟩
  refine checkTxInMemPool_eq_ok.mpr ⟨hcache, tip, htip, hvalid, x, ?_, rfl, ?_⟩
  · exact (executeTx_rateAfter 0 (Int32.ofInt (tip.nHeight + 1)).toInt vs p.2).trans hx
  · have hrate : ({ p.2 with nFuelRate := p.2.rateAfter node vs.scriptDB } :
        CTxMemPoolEntry).rateAfter node vs.scriptDB = p.2.rateAfter node vs.scriptDB := by
      unfold CTxMemPoolEntry.rateAfter
      by_cases htype : p.2.pTx.chTxType = .contract
      · rw [if_pos htype, if_pos htype]
        exact getFuelRate_again ..
      · rw [if_neg htype, if_neg htype]
    rw [hrate]

/-! ## The scan -/

/-- A scan that returns has kept what executes. -/
theorem scan_eq {l : List PoolItem} {kept : List PoolItem} {st : List PoolItem × Views}
    (h : l.foldlM (scanTx node cache) (kept, vs) = .ok st) :
    st = (kept ++ (Admission.admitted (admits node cache) vs l).1,
      (Admission.admitted (admits node cache) vs l).2) := by
  induction l generalizing kept vs with
  | nil =>
    obtain rfl := Except.ok.inj h
    show (kept, vs) = (kept ++ [], vs)
    rw [List.append_nil]
  | cons p l ih =>
    rw [List.foldlM_cons] at h
    obtain ⟨st', hturn, hrest⟩ := Except.bind_eq_ok.mp h
    unfold scanTx at hturn
    cases hcheck : checkTxInMemPool node cache p.1 p.2 true vs with
    | ok r =>
      dsimp only at hturn
      rw [hcheck] at hturn
      obtain rfl := Except.ok.inj hturn
      rw [Admission.admitted_cons_of_some (admits_eq_some.mpr ⟨r.2, hcheck, rfl⟩), ih hrest,
        List.append_assoc]
      rfl
    | error x =>
      have hnone : admits node cache vs p = none := by
        unfold admits
        rw [hcheck]
      dsimp only at hturn
      rw [hcheck] at hturn
      cases x with
      | fail calls =>
        obtain rfl := Except.ok.inj hturn
        rw [Admission.admitted_cons_of_none hnone]
        exact ih hrest
      | throw what => cases hturn

/-- No execution ends in an exception, on the views it meets. -/
def NoException (node : Node) (cache : CTransactionDBCache) (tip : Views) (l : List PoolItem) : Prop :=
  ∀ before p after, l = before ++ p :: after → ∀ what,
    checkTxInMemPool node cache p.1 p.2 true (Admission.admitted (admits node cache) tip before).2
      ≠ .error (.throw what)

/-- The scan returns exactly if nothing throws. -/
theorem scan_returns_iff {tip : Views} {l : List PoolItem} :
    (∃ st, l.foldlM (scanTx node cache) ([], tip) = .ok st) ↔ NoException node cache tip l := by
  induction l using List.reverseRecOn with
  | nil =>
    constructor
    · intro _ before p after h
      cases before with
      | nil => cases h
      | cons q before => cases h
    · intro _
      exact ⟨_, rfl⟩
  | append_singleton l p ih =>
    rw [List.foldlM_append]
    constructor
    · rintro ⟨st, h⟩ before q after hsplit what hthrow
      obtain ⟨st₁, hfirst, hlast⟩ := Except.bind_eq_ok.mp h
      rcases List.eq_nil_or_concat after with rfl | ⟨after', r, rfl⟩
      · -- the last turn
        obtain ⟨hl, hp⟩ := List.append_inj' hsplit rfl
        obtain rfl := hl
        obtain rfl := (List.cons.inj hp).1
        obtain rfl := scan_eq hfirst
        rw [List.foldlM_cons] at hlast
        obtain ⟨st₂, hturn, -⟩ := Except.bind_eq_ok.mp hlast
        unfold scanTx at hturn
        rw [hthrow] at hturn
        cases hturn
      · have hshort : l = before ++ q :: after' := by
          have hassoc : before ++ q :: (after' ++ [r]) = (before ++ q :: after') ++ [r] := by simp
          rw [List.concat_eq_append, hassoc] at hsplit
          exact (List.append_inj' hsplit rfl).1
        exact ih.mp ⟨st₁, hfirst⟩ before q after' hshort what hthrow
    · intro h
      obtain ⟨st₁, hfirst⟩ := ih.mpr (by
        intro before q after hsplit
        apply h before q (after ++ [p])
        rw [hsplit, List.append_assoc]
        rfl)
      obtain rfl := scan_eq hfirst
      rw [hfirst]
      show ∃ st, [p].foldlM (scanTx node cache) _ = .ok st
      rw [List.foldlM_cons]
      unfold scanTx
      cases hcheck : checkTxInMemPool node cache p.1 p.2 true
          (Admission.admitted (admits node cache) tip l).2 with
      | ok r => exact ⟨_, rfl⟩
      | error x =>
        cases x with
        | fail calls => exact ⟨_, rfl⟩
        | throw what => exact absurd hcheck (h l p [] rfl what)

/-- What is kept of a pool is in order. -/
theorem kept_ordered (pool : CTxMemPool) {kept : List PoolItem}
    (h : (kept.map itemTx).Sublist (pool.mapTx.map itemTx)) :
    kept.Pairwise ItemLe ∧ (kept.map Prod.fst).Nodup := by
  have hkeys : (kept.map Prod.fst).Sublist (pool.mapTx.map Prod.fst) := by
    have hfst := h.map Prod.fst
    rw [List.map_map, List.map_map] at hfst
    exact hfst
  refine ⟨?_, pool.nodup.sublist hkeys⟩
  have hle : (pool.mapTx.map Prod.fst).Pairwise HashLe := List.pairwise_map.mpr pool.sorted
  have hkept : kept.Pairwise fun p q => HashLe p.1 q.1 := List.pairwise_map.mp (hle.sublist hkeys)
  exact hkept

theorem kept_sublist {tip : Views} {l : List PoolItem} {st : List PoolItem × Views}
    (h : l.foldlM (scanTx node cache) ([], tip) = .ok st) :
    (st.1.map itemTx).Sublist (l.map itemTx) := by
  rw [scan_eq h]
  exact Admission.admitted_sublist (keeps_admits node cache) tip l

end

section
variable (node : Node) (cache : CTransactionDBCache) (tip : Views) (pool : CTxMemPool)

/-- `ReScanMemPoolTx`; `tip` are the views of the tip. -/
def reScanMemPoolTx : Exec CTxMemPool :=
  match h : pool.mapTx.foldlM (scanTx node cache) ([], tip) with
  | .ok st => .ok
    { mapTx := st.1
      views := st.2
      sorted := (kept_ordered pool (kept_sublist h)).1
      nodup := (kept_ordered pool (kept_sublist h)).2 }
  | .error x => .error x

/-- The hashes in the pool. -/
def hashes : List Uint256 := pool.mapTx.map Prod.fst

/-- The transactions in the pool. -/
def txs : List (Uint256 × CBaseTransaction) := pool.mapTx.map itemTx

/-- `m_mapTx.insert`. -/
def insertItem (p : PoolItem) : List PoolItem :=
  if p.1 ∈ pool.hashes then pool.mapTx else pool.mapTx.orderedInsert ItemLe p

theorem insertItem_ordered (p : PoolItem) : (pool.insertItem p).Pairwise ItemLe ∧
    ((pool.insertItem p).map Prod.fst).Nodup := by
  unfold insertItem
  by_cases hmem : p.1 ∈ pool.hashes
  · rw [if_pos hmem]
    exact ⟨pool.sorted, pool.nodup⟩
  · rw [if_neg hmem]
    refine ⟨pool.sorted.orderedInsert p, ?_⟩
    have hperm := (List.perm_orderedInsert ItemLe p pool.mapTx).map Prod.fst
    rw [hperm.nodup_iff, List.map_cons]
    exact List.nodup_cons.mpr ⟨hmem, pool.nodup⟩

/-- `addUnchecked`. -/
def addUnchecked (cHash : Uint256) (e : CTxMemPoolEntry) : Exec CTxMemPool := do
  let r ← checkTxInMemPool node cache cHash e true pool.views
  return { mapTx := pool.insertItem (cHash, r.2)
           views := r.1
           sorted := (pool.insertItem_ordered (cHash, r.2)).1
           nodup := (pool.insertItem_ordered (cHash, r.2)).2 }

/-- The items before the place of a hash, and those from there on. -/
def before (cHash : Uint256) : List PoolItem := pool.mapTx.takeWhile fun p => ¬ HashLe cHash p.1
def behind (cHash : Uint256) : List PoolItem := pool.mapTx.dropWhile fun p => ¬ HashLe cHash p.1

end

section
variable {node : Node} {cache : CTransactionDBCache} {tip : Views} {pool pool' : CTxMemPool}
  {cHash : Uint256} {e : CTxMemPoolEntry}

@[ext] theorem ext_fields (hmap : pool.mapTx = pool'.mapTx) (hviews : pool.views = pool'.views) :
    pool = pool' := by
  cases pool
  cases pool'
  cases hmap
  cases hviews
  rfl

theorem reScanMemPoolTx_eq_ok : reScanMemPoolTx node cache tip pool = .ok pool' ↔
    NoException node cache tip pool.mapTx ∧
      pool'.mapTx = (Admission.admitted (admits node cache) tip pool.mapTx).1 ∧
      pool'.views = (Admission.admitted (admits node cache) tip pool.mapTx).2 := by
  unfold reScanMemPoolTx
  split
  · next st h =>
    have heq := scan_eq h
    constructor
    · intro hok
      obtain rfl := Except.ok.inj hok
      refine ⟨scan_returns_iff.mp ⟨st, h⟩, ?_, ?_⟩
      · show st.1 = _
        rw [heq, List.nil_append]
      · show st.2 = _
        rw [heq]
    · rintro ⟨-, hmap, hviews⟩
      congr 1
      apply ext_fields
      · show st.1 = _
        rw [hmap, heq, List.nil_append]
      · show st.2 = _
        rw [hviews, heq]
  · next x h =>
    constructor
    · intro hok
      cases hok
    · rintro ⟨hnone, -, -⟩
      obtain ⟨st, hok⟩ := scan_returns_iff.mpr hnone
      rw [h] at hok
      cases hok

theorem reScan_returns_iff :
    (∃ pool', reScanMemPoolTx node cache tip pool = .ok pool') ↔ NoException node cache tip pool.mapTx := by
  constructor
  · rintro ⟨pool', h⟩
    exact (reScanMemPoolTx_eq_ok.mp h).1
  · intro h
    obtain ⟨st, hst⟩ := scan_returns_iff.mpr h
    have hkept := kept_ordered pool (kept_sublist hst)
    have heq := scan_eq hst
    refine ⟨⟨st.1, st.2, hkept.1, hkept.2⟩, reScanMemPoolTx_eq_ok.mpr ⟨h, ?_, ?_⟩⟩
    · show st.1 = _
      rw [heq, List.nil_append]
    · show st.2 = _
      rw [heq]

theorem mapTx_split (pool : CTxMemPool) (cHash : Uint256) :
    pool.mapTx = pool.before cHash ++ pool.behind cHash :=
  (List.takeWhile_append_dropWhile ..).symm

theorem insertItem_eq (hnew : cHash ∉ pool.hashes) (e : CTxMemPoolEntry) :
    pool.insertItem (cHash, e) = pool.before cHash ++ (cHash, e) :: pool.behind cHash := by
  unfold insertItem
  rw [if_neg hnew, List.orderedInsert_eq_take_drop]
  rfl

theorem addUnchecked_eq_ok : pool.addUnchecked node cache cHash e = .ok pool' ↔
    ∃ vs e', checkTxInMemPool node cache cHash e true pool.views = .ok (vs, e') ∧
      pool'.mapTx = pool.insertItem (cHash, e') ∧ pool'.views = vs := by
  unfold addUnchecked
  rw [Except.bind_eq_ok]
  constructor
  · rintro ⟨r, hcheck, hpure⟩
    obtain rfl := Except.ok.inj hpure
    exact ⟨r.1, r.2, hcheck, rfl, rfl⟩
  · rintro ⟨vs, e', hcheck, hmap, hviews⟩
    refine ⟨(vs, e'), hcheck, ?_⟩
    show Except.ok _ = Except.ok _
    congr 1
    exact ext_fields hmap.symm hviews.symm

/-! ## What holds of the pool -/

/-- The pool executes in its order from the tip and its views are where that leads; each transaction is
unconfirmed and in its window; and a rescan on the same tip returns, with all transactions and the
views as they are. -/
structure Consistent (node : Node) (cache : CTransactionDBCache) (tip : Views) (pool : CTxMemPool) :
    Prop where
  runs : Admission.runAll (admits node cache) tip pool.mapTx = some pool.views
  checked : ∀ p ∈ pool.mapTx, cache.isContainTx p.1 = false ∧
    ∃ q, node.chainActive.head? = some q ∧
      p.2.pTx.isValidHeight q.nHeight node.cfg.nTxCacheHeight = true
  again : ∃ pool', reScanMemPoolTx node cache tip pool = .ok pool' ∧ pool'.txs = pool.txs ∧
    pool'.views = pool.views

/-- A pool that executes meets no exception. -/
theorem noException_of_runAll {l : List PoolItem} {vs : Views}
    (h : Admission.runAll (admits node cache) tip l = some vs) : NoException node cache tip l := by
  rintro before p after rfl what hthrow
  rw [Admission.runAll_append] at h
  cases hb : Admission.runAll (admits node cache) tip before with
  | none =>
    rw [hb] at h
    cases h
  | some b =>
    rw [hb, Option.bind_some] at h
    rw [(Admission.admitted_of_runAll (keeps_admits node cache) hb).1] at hthrow
    have hnone : admits node cache b p = none := by
      unfold admits
      rw [hthrow]
    rw [Admission.runAll_cons_of_none hnone] at h
    cases h

theorem consistent_iff : Consistent node cache tip pool ↔
    Admission.runAll (admits node cache) tip pool.mapTx = some pool.views := by
  constructor
  · intro h
    exact h.runs
  · intro h
    refine ⟨h, ?_, ?_⟩
    · intro p hp
      obtain ⟨u, r, hexec⟩ := Admission.exists_exec_of_runAll h hp
      obtain ⟨e', hcheck, -⟩ := admits_eq_some.mp hexec
      obtain ⟨hcache, q, hq, hvalid, -⟩ := checkTxInMemPool_eq_ok.mp hcheck
      exact ⟨hcache, q, hq, hvalid⟩
    · obtain ⟨pool', hscan⟩ := reScan_returns_iff.mpr (noException_of_runAll h)
      obtain ⟨-, hmap, hviews⟩ := reScanMemPoolTx_eq_ok.mp hscan
      obtain ⟨hstate, hkeys⟩ := Admission.admitted_of_runAll (keeps_admits node cache) h
      refine ⟨pool', hscan, ?_, ?_⟩
      · unfold txs
        rw [hmap, hkeys]
      · rw [hviews, hstate]

/-- A rescan leaves a pool that executes, without anything new, and finds nothing more to do. -/
theorem reScan_spec (h : reScanMemPoolTx node cache tip pool = .ok pool') :
    Consistent node cache tip pool' ∧ pool'.txs.Sublist pool.txs ∧
      reScanMemPoolTx node cache tip pool' = .ok pool' := by
  obtain ⟨-, hmap, hviews⟩ := reScanMemPoolTx_eq_ok.mp h
  have hruns : Admission.runAll (admits node cache) tip pool'.mapTx = some pool'.views := by
    rw [hmap, hviews]
    exact Admission.runAll_admitted (settles_admits node cache) tip pool.mapTx
  have hagain : Admission.admitted (admits node cache) tip pool'.mapTx
      = Admission.admitted (admits node cache) tip pool.mapTx := by
    rw [hmap]
    exact Admission.admitted_admitted (settles_admits node cache) tip pool.mapTx
  refine ⟨consistent_iff.mpr hruns, ?_, ?_⟩
  · unfold txs
    rw [hmap]
    exact Admission.admitted_sublist (keeps_admits node cache) tip pool.mapTx
  · refine reScanMemPoolTx_eq_ok.mpr ⟨noException_of_runAll hruns, ?_, ?_⟩
    · rw [hagain, hmap]
    · rw [hagain, hviews]

/-! ## Runs -/

/-- What the pool is asked to do while the tip stays. -/
inductive PoolCall where
  | reScan
  | addUnchecked (cHash : Uint256) (e : CTxMemPoolEntry)

/-- `AcceptToMemoryPool` calls `addUnchecked` for a hash that is not in the pool; a transaction that
is refused leaves the pool as it was. -/
def Step (node : Node) (cache : CTransactionDBCache) (tip : Views) (pool : CTxMemPool) :
    PoolCall → CTxMemPool → Prop
  | .reScan, pool' => reScanMemPoolTx node cache tip pool = .ok pool'
  | .addUnchecked cHash e, pool' => cHash ∉ pool.hashes ∧
    (pool.addUnchecked node cache cHash e = .ok pool' ∨
      (∃ x, pool.addUnchecked node cache cHash e = .error x) ∧ pool' = pool)

/-- Where the hash puts a transaction that executes, before the transactions behind it, it may as well
be executed after them. -/
def InOrder (node : Node) (cache : CTransactionDBCache) (tip : Views) (pool : CTxMemPool) :
    PoolCall → Prop
  | .reScan => True
  | .addUnchecked cHash e => ∀ vs e' b,
    checkTxInMemPool node cache cHash e true pool.views = .ok (vs, e') →
    Admission.runAll (admits node cache) tip (pool.before cHash) = some b →
    Admission.runAll (admits node cache) b ((cHash, e') :: pool.behind cHash)
      = Admission.runAll (admits node cache) b (pool.behind cHash ++ [(cHash, e')])

/-- No transaction of the pool comes after it. -/
theorem inOrder_of_last (h : pool.behind cHash = []) (e : CTxMemPoolEntry) :
    InOrder node cache tip pool (.addUnchecked cHash e) := by
  intro vs e' b _ _
  rw [h]
  rfl

theorem addUnchecked_consistent_iff (hpool : Consistent node cache tip pool)
    (hnew : cHash ∉ pool.hashes) (h : pool.addUnchecked node cache cHash e = .ok pool') :
    Consistent node cache tip pool' ↔ InOrder node cache tip pool (.addUnchecked cHash e) := by
  obtain ⟨vs, e', hcheck, hmap, hviews⟩ := addUnchecked_eq_ok.mp h
  have hexec : admits node cache pool.views (cHash, e') = some (vs, (cHash, e')) :=
    settles_admits node cache pool.views (cHash, e) vs (cHash, e')
      (admits_eq_some.mpr ⟨e', hcheck, rfl⟩)
  have hruns := hpool.runs
  rw [mapTx_split pool cHash] at hruns
  rw [consistent_iff, hmap, hviews, insertItem_eq hnew,
    Admission.runAll_insert_iff hruns hexec]
  constructor
  · intro hall ws f b hcheck' hb
    obtain ⟨-, rfl⟩ := Prod.mk.inj (Except.ok.inj (hcheck.symm.trans hcheck'))
    exact hall b hb
  · intro hall b hb
    exact hall vs e' b hcheck hb

theorem step_consistent {call : PoolCall} (hpool : Consistent node cache tip pool)
    (horder : InOrder node cache tip pool call) (h : Step node cache tip pool call pool') :
    Consistent node cache tip pool' := by
  cases call with
  | reScan => exact (reScan_spec h).1
  | addUnchecked cHash e =>
    obtain ⟨hnew, hok | ⟨-, rfl⟩⟩ := h
    · exact (addUnchecked_consistent_iff hpool hnew hok).mpr horder
    · exact hpool

/-- A rescan returns exactly if no execution throws; it drops transactions only, and leaves a pool that
is consistent and that another rescan leaves alone.  In every run from there whose new transactions
are all in order the pool is consistent, and a new transaction keeps it so exactly if it is. -/
theorem memPool_holds (node : Node) (cache : CTransactionDBCache) (tip : Views) (pool : CTxMemPool) :
    ((∃ pool', reScanMemPoolTx node cache tip pool = .ok pool') ↔
        NoException node cache tip pool.mapTx) ∧
      ∀ pool', reScanMemPoolTx node cache tip pool = .ok pool' →
        pool'.txs.Sublist pool.txs ∧ reScanMemPoolTx node cache tip pool' = .ok pool' ∧
        (∀ t, Calls.ReachedIf (Step node cache tip) (InOrder node cache tip) pool' t →
          Consistent node cache tip t) ∧
        ∀ t u cHash e, Consistent node cache tip t → cHash ∉ t.hashes →
          t.addUnchecked node cache cHash e = .ok u →
            (Consistent node cache tip u ↔ InOrder node cache tip t (.addUnchecked cHash e)) := by
  refine ⟨reScan_returns_iff, ?_⟩
  intro pool' hscan
  obtain ⟨hcons, hsub, hagain⟩ := reScan_spec hscan
  refine ⟨hsub, hagain, ?_, ?_⟩
  · intro t hrun
    exact hrun.invariant hcons fun t call u ht horder hstep => step_consistent ht horder hstep
  · intro t u cHash e ht hnew hadd
    exact addUnchecked_consistent_iff ht hnew hadd

end

/-! ## On the small chain -/

open Sample

def sampleNode : Node := chainNode [withEntry genesisBlock]

/-- One holder with ten coins, one with none. -/
def sampleTip : Views where
  view := viewOf [holder, { miner with ullValues := 0 }] [(⟨50, 1⟩, keyId 5), (⟨0, 1⟩, keyId 6)] 0
  scriptDB := scriptsOf []

/-- Five coins to the second, and one of them back. -/
def payment : CTxMemPoolEntry :=
  ⟨.transaction ⟨.common, 2, 1, .regID ⟨50, 1⟩, .regID ⟨0, 1⟩, 10000, 500000000, [], []⟩, 0⟩
def repayment : CTxMemPoolEntry :=
  ⟨.transaction ⟨.common, 2, 1, .regID ⟨0, 1⟩, .regID ⟨50, 1⟩, 10000, 100000000, [], []⟩, 0⟩

def sampleHash (e : CTxMemPoolEntry) : Uint256 := e.pTx.getHash sampleNode.cr.Hash

/-- Both, in the order of their hashes. -/
def samplePool : CTxMemPool where
  mapTx := [(sampleHash repayment, repayment), (sampleHash payment, payment)]
  views := sampleTip
  sorted := by decide +kernel
  nodup := by decide +kernel

/-- One coin more to the second. -/
def smallPayment : CTxMemPoolEntry :=
  ⟨.transaction ⟨.common, 2, 1, .regID ⟨50, 1⟩, .regID ⟨0, 1⟩, 10000, 100000000, [], []⟩, 0⟩

/-- The pool is scanned, and the small payment arrives. -/
def acceptedRun : Exec (CTxMemPool × CTxMemPool) := do
  let scanned ← reScanMemPoolTx sampleNode .empty sampleTip samplePool
  let accepted ← scanned.addUnchecked sampleNode .empty (sampleHash smallPayment) smallPayment
  return (scanned, accepted)

/-- What two views have to agree on. -/
def viewFields (vs : Views) : Store CKeyID CAccount × Store CRegID CKeyID × Uint256 × Store Bytes Bytes :=
  (vs.view.accounts, vs.view.keyIds, vs.view.cHashBlock, vs.scriptDB.mapDatas)

theorem viewFields_injective : Function.Injective viewFields := by
  rintro ⟨view, scriptDB⟩ ⟨view', scriptDB'⟩ h
  obtain ⟨haccounts, h⟩ := Prod.mk.inj h
  obtain ⟨hkeyIds, h⟩ := Prod.mk.inj h
  obtain ⟨hbest, hdatas⟩ := Prod.mk.inj h
  exact Views.ext (CAccountViewCache.ext haccounts hkeyIds hbest) (CScriptDBViewCache.ext hdatas)

/-- The small payment goes before the other one, and may as well be executed after it. -/
theorem smallPayment_inOrder {pool : CTxMemPool} (h : pool.mapTx = [(sampleHash payment, payment)]) :
    InOrder sampleNode .empty sampleTip pool (.addUnchecked (sampleHash smallPayment) smallPayment) := by
  intro vs e' b hcheck hb
  have hle : HashLe (sampleHash smallPayment) (sampleHash payment) := by decide +kernel
  have hbefore : pool.before (sampleHash smallPayment) = [] := by
    rw [before, h, List.takeWhile_cons_of_neg (by simpa using hle)]
  have hbehind : pool.behind (sampleHash smallPayment) = [(sampleHash payment, payment)] := by
    rw [behind, h, List.dropWhile_cons_of_neg (by simpa using hle)]
  rw [hbefore] at hb
  obtain rfl := Option.some.inj hb
  obtain ⟨-, q, -, -, x, -, -, rfl⟩ := checkTxInMemPool_eq_ok.mp hcheck
  rw [hbehind]
  refine Option.map_injective viewFields_injective ?_
  show (Admission.runAll (admits sampleNode .empty) sampleTip
      [(sampleHash smallPayment, smallPayment), (sampleHash payment, payment)]).map viewFields
    = (Admission.runAll (admits sampleNode .empty) sampleTip
      [(sampleHash payment, payment), (sampleHash smallPayment, smallPayment)]).map viewFields
  decide +kernel

/-- The repayment comes first and is dropped; the small payment is accepted and put before the other one. -/
theorem memPool_holds_sample : ∃ scanned accepted,
    reScanMemPoolTx sampleNode .empty sampleTip samplePool = .ok scanned ∧
    scanned.addUnchecked sampleNode .empty (sampleHash smallPayment) smallPayment = .ok accepted ∧
    accepted.hashes = [sampleHash smallPayment, sampleHash payment] ∧
    Consistent sampleNode .empty sampleTip accepted := by
  have hfacts : acceptedRun.toOption.map (fun r =>
      (r.1.mapTx.map fun p => (p.1, p.2.pTx, p.2.nFuelRate), r.2.hashes))
      = some ([(sampleHash payment, payment.pTx, payment.nFuelRate)],
        [sampleHash smallPayment, sampleHash payment]) := by decide +kernel
  cases hr : acceptedRun with
  | error x =>
    rw [hr] at hfacts
    cases hfacts
  | ok r =>
    rw [hr] at hfacts
    obtain ⟨hitems, hhashes⟩ := Prod.mk.inj (Option.some.inj hfacts)
    unfold acceptedRun at hr
    obtain ⟨scanned, hscan, hr⟩ := Except.bind_eq_ok.mp hr
    obtain ⟨accepted, hadd, hr⟩ := Except.bind_eq_ok.mp hr
    obtain rfl := Except.ok.inj hr
    have hinj : Function.Injective fun p : PoolItem => (p.1, p.2.pTx, p.2.nFuelRate) := by
      rintro ⟨cHash, pTx, nFuelRate⟩ ⟨cHash', pTx', nFuelRate'⟩ heq
      cases heq
      rfl
    have hmap : scanned.mapTx = [(sampleHash payment, payment)] :=
      List.map_injective_iff.mpr hinj hitems
    have hnew : sampleHash smallPayment ∉ scanned.hashes := by
      rw [hashes, hmap]
      decide +kernel
    obtain ⟨-, -, hruns, -⟩ := (memPool_holds sampleNode .empty sampleTip samplePool).2 scanned hscan
    exact ⟨scanned, accepted, hscan, hadd, hhashes, hruns accepted
      (.call .start (smallPayment_inOrder hmap) (show Step _ _ _ scanned (.addUnchecked _ _) accepted from
        ⟨hnew, .inl hadd⟩))⟩

/-- An empty pool is scanned, the payment arrives, then the repayment. -/
def sampleRun : Exec (CTxMemPool × CTxMemPool × CTxMemPool) := do
  let scanned ← reScanMemPoolTx sampleNode .empty sampleTip ⟨[], sampleTip, .nil, .nil⟩
  let paid ← scanned.addUnchecked sampleNode .empty (sampleHash payment) payment
  let repaid ← paid.addUnchecked sampleNode .empty (sampleHash repayment) repayment
  return (scanned, paid, repaid)

/-- The repayment is accepted, but put before the payment it rests on. -/
theorem arrival_order_breaks : ¬ ∀ (node : Node) (cache : CTransactionDBCache) (tip : Views)
    (pool pool' t : CTxMemPool), reScanMemPoolTx node cache tip pool = .ok pool' →
      Calls.Reached (Step node cache tip) pool' t → Consistent node cache tip t := by
  intro h
  have hfacts : sampleRun.toOption.map (fun r => decide (sampleHash payment ∉ r.1.hashes ∧
      sampleHash repayment ∉ r.2.1.hashes ∧
      (Admission.runAll (admits sampleNode .empty) sampleTip r.2.2.mapTx).isSome = false))
      = some true := by decide +kernel
  cases hr : sampleRun with
  | error x =>
    rw [hr] at hfacts
    cases hfacts
  | ok r =>
    rw [hr] at hfacts
    obtain ⟨hfirst, hsecond, hfails⟩ := of_decide_eq_true (Option.some.inj hfacts)
    unfold sampleRun at hr
    obtain ⟨scanned, hscan, hr⟩ := Except.bind_eq_ok.mp hr
    obtain ⟨paid, hpaid, hr⟩ := Except.bind_eq_ok.mp hr
    obtain ⟨repaid, hrepaid, hr⟩ := Except.bind_eq_ok.mp hr
    obtain rfl := Except.ok.inj hr
    have hcons := h sampleNode .empty sampleTip _ scanned repaid hscan
      (.call (.call .start trivial (show Step _ _ _ scanned (.addUnchecked _ _) paid from
        ⟨hfirst, .inl hpaid⟩)) trivial (show Step _ _ _ paid (.addUnchecked _ _) repaid from
        ⟨hsecond, .inl hrepaid⟩))
    rw [hcons.runs] at hfails
    cases hfails

end CTxMemPool

end Dacrs
