import Dacrs.ExecuteFrame
import Dacrs.Lib.Window
import Dacrs.TipAtomic

/-!
# The window of the transaction cache

What `ConnectBlock` asks of every transaction besides the coinbase, and what it and `DisconnectBlock`
do to the transaction cache: a block is added and, from the window's length on, the one behind the
window's far edge deleted; or the other way round.
-/

open Codec (Bytes)

namespace Dacrs

/-! ## What the two functions ask and do -/

namespace CBlock

variable {node : Node} {b : CBlock} {vs : Views} {p pPrev : PBlockIndex} {pIndex : CBlockIndex}
  {nHeight : ℤ} {cache c : CTransactionDBCache} {files : UndoFiles}

/-- The hashes of the transactions a block executes besides its coinbase. -/
def otherHashes (Hash : Bytes → Uint256) (b : CBlock) : List Uint256 :=
  (b.vptx.filter fun tx => !tx.isCoinBase).map (CBaseTransaction.getHash Hash)

/-- The hashes of all transactions of a block. -/
def txHashes (Hash : Bytes → Uint256) (b : CBlock) : List Uint256 :=
  b.vptx.map (CBaseTransaction.getHash Hash)

theorem mem_otherHashes {Hash : Bytes → Uint256} {t : Uint256} :
    t ∈ b.otherHashes Hash ↔ ∃ tx ∈ b.vptx, tx.isCoinBase = false ∧ tx.getHash Hash = t := by
  unfold otherHashes
  simp [and_assoc]

theorem otherHashes_subset {Hash : Bytes → Uint256} {t : Uint256} (h : t ∈ b.otherHashes Hash) :
    t ∈ b.txHashes Hash := by
  obtain ⟨tx, htx, -, rfl⟩ := mem_otherHashes.mp h
  exact List.mem_map_of_mem htx

theorem bestHeight_congr {vs' : Views} (h : vs'.view.cHashBlock = vs.view.cHashBlock) :
    bestHeight node vs' = bestHeight node vs := by
  unfold bestHeight
  rw [h]

/-- Every transaction of the loop was not in the cache, and within its window. -/
theorem connectTxs_checked {items : List (CBaseTransaction × ℕ)} {st st' : TxsRun} {best : ℤ}
    (hbest : bestHeight node st.views = .ok best)
    (h : items.foldlM (b.connectTx node nHeight cache) st = .ok st') :
    ∀ item ∈ items, ¬ cache.isContainTx (item.1.getHash node.cr.Hash) ∧
      item.1.isValidHeight best node.cfg.nTxCacheHeight = true := by
  induction items generalizing st with
  | nil =>
    intro item hitem
    cases hitem
  | cons item items ih =>
    rw [List.foldlM_cons, Except.bind_eq_ok] at h
    obtain ⟨st₁, h1, h2⟩ := h
    obtain ⟨e, llFuel, he, -, -, hst⟩ := connectTx_ok h1
    have hnext : bestHeight node st₁.views = .ok best := by
      rw [hst]
      exact (bestHeight_congr (CBaseTransaction.executeTx_cHashBlock he)).trans hbest
    intro item' hitem'
    rcases List.mem_cons.mp hitem' with rfl | hmem
    · simp only [connectTx, Except.bind_eq_ok] at h1
      obtain ⟨_, hcontain, best', hbest', _, hvalid, -⟩ := h1
      obtain rfl := Except.ok.inj (hbest'.symm.trans hbest)
      exact ⟨(Exec.require_eq_ok (Exec.fails_doS _ _ _ _)).mp hcontain,
        (Exec.require_eq_ok (Exec.fails_doS _ _ _ _)).mp hvalid⟩
    · exact ih hnext h2 item' hmem

theorem writeUndo_ok {undo : CBlockUndo} {pIndex' : CBlockIndex} {files' : UndoFiles}
    (h : writeUndo node pIndex pPrev undo files = .ok (pIndex', files')) :
    pIndex'.hashBlock = pIndex.hashBlock ∧ pIndex'.nHeight = pIndex.nHeight := by
  unfold writeUndo at h
  split at h
  · unfold writeNewUndo at h
    split at h
    · cases h
    · split at h
      · cases h
      · rw [Except.bind_eq_ok] at h
        obtain ⟨_, -, h⟩ := h
        obtain ⟨rfl, -⟩ := Prod.mk.inj (Except.ok.inj h)
        exact ⟨rfl, rfl⟩
  · obtain ⟨rfl, -⟩ := Prod.mk.inj (Except.ok.inj h)
    exact ⟨rfl, rfl⟩

theorem connectEntry_ok {undo : CBlockUndo} {pIndex' : CBlockIndex} {files' : UndoFiles}
    (h : connectEntry node pIndex pPrev undo files = .ok (pIndex', files')) :
    pIndex'.hashBlock = pIndex.hashBlock ∧ pIndex'.nHeight = pIndex.nHeight := by
  unfold connectEntry at h
  split at h
  · rw [Except.bind_eq_ok] at h
    obtain ⟨⟨pIndex₁, files₁⟩, hwrite, h⟩ := h
    rw [Except.bind_eq_ok] at h
    obtain ⟨_, -, h⟩ := h
    obtain ⟨rfl, -⟩ := Prod.mk.inj (Except.ok.inj h)
    have hsame := writeUndo_ok hwrite
    exact hsame
  · obtain ⟨rfl, -⟩ := Prod.mk.inj (Except.ok.inj h)
    exact ⟨rfl, rfl⟩

theorem connectRecords_ok {vs' : Views} {undo : CBlockUndo} {out : Connected}
    (h : b.connectRecords node pIndex pPrev cache files vs' undo = .ok out) :
    out.pBlockIndex.hashBlock = pIndex.hashBlock ∧ out.pBlockIndex.nHeight = pIndex.nHeight ∧
      b.connectCache node (pIndex :: pPrev) pIndex.nHeight cache = .ok out.cTxCache := by
  unfold connectRecords at h
  dsimp only at h
  rw [Except.bind_eq_ok] at h
  obtain ⟨⟨pIndex', files'⟩, hentry, h⟩ := h
  rw [Except.bind_eq_ok] at h
  obtain ⟨c, hcache, h⟩ := h
  obtain rfl := Except.ok.inj h
  obtain ⟨hhash, hheight⟩ := connectEntry_ok hentry
  exact ⟨hhash, hheight, hcache⟩

theorem cacheLimitBlock_ok {d : CBlock} (h : cacheLimitBlock node p nHeight = .ok d) :
    ∃ q, chainAt p (nHeight - node.cfg.nTxCacheHeight) = some q ∧
      node.readBlockFromDisk q = some d := by
  unfold cacheLimitBlock at h
  rw [Except.bind_eq_ok] at h
  obtain ⟨q, hq, hd⟩ := h
  exact ⟨q, (Exec.ofOption_eq_ok (Exec.fails_throw _)).mp hq,
    (Exec.ofOption_eq_ok (Exec.fails_error _)).mp hd⟩

/-- The block is added; from the window's length on another one is deleted. -/
theorem connectCache_ok (h : b.connectCache node p nHeight cache = .ok c) :
    (nHeight ≤ node.cfg.nTxCacheHeight ∧ c = cache.addBlockToCache node.cr.Hash b) ∨
    (node.cfg.nTxCacheHeight < nHeight ∧ ∃ q d,
      chainAt p (nHeight - node.cfg.nTxCacheHeight) = some q ∧ node.readBlockFromDisk q = some d ∧
        (cache.addBlockToCache node.cr.Hash b).deleteBlockFromCache node.cr.Hash d = some c) := by
  unfold connectCache at h
  dsimp only at h
  split at h
  · next hpos =>
    rw [Except.bind_eq_ok] at h
    obtain ⟨d, hlimit, hdel⟩ := h
    obtain ⟨q, hq, hd⟩ := cacheLimitBlock_ok hlimit
    exact .inr ⟨by omega, q, d, hq, hd, (Exec.ofOption_eq_ok (Exec.fails_error _)).mp hdel⟩
  · next hpos =>
    exact .inl ⟨by omega, (Except.ok.inj h).symm⟩

/-- The block is deleted; from the window's length on another one is added. -/
theorem disconnectCache_ok (h : b.disconnectCache node pPrev nHeight cache = .ok c) :
    ∃ c₁, cache.deleteBlockFromCache node.cr.Hash b = some c₁ ∧
      ((nHeight ≤ node.cfg.nTxCacheHeight ∧ c = c₁) ∨
      (node.cfg.nTxCacheHeight < nHeight ∧ ∃ q d,
        chainAt pPrev (nHeight - node.cfg.nTxCacheHeight) = some q ∧
          node.readBlockFromDisk q = some d ∧ c = c₁.addBlockToCache node.cr.Hash d)) := by
  unfold disconnectCache at h
  rw [Except.bind_eq_ok] at h
  obtain ⟨c₁, hdel, h⟩ := h
  refine ⟨c₁, (Exec.ofOption_eq_ok (Exec.fails_error _)).mp hdel, ?_⟩
  split at h
  · next hpos =>
    rw [Except.bind_eq_ok] at h
    obtain ⟨d, hlimit, hc⟩ := h
    obtain ⟨q, hq, hd⟩ := cacheLimitBlock_ok hlimit
    exact .inr ⟨by omega, q, d, hq, hd, (Except.ok.inj hc).symm⟩
  · next hpos =>
    exact .inl ⟨by omega, (Except.ok.inj h).symm⟩

theorem disconnectBlock_ok {vs' : Views}
    (h : b.disconnectBlock node vs (pIndex :: pPrev) cache files = .ok (vs', c)) :
    b.disconnectCache node pPrev pIndex.nHeight cache = .ok c := by
  unfold disconnectBlock at h
  dsimp only at h
  rw [Except.bind_eq_ok] at h
  obtain ⟨_, -, h⟩ := h
  rw [Except.bind_eq_ok] at h
  obtain ⟨undo, -, h⟩ := h
  rw [Except.bind_eq_ok] at h
  obtain ⟨v, -, h⟩ := h
  rw [Except.bind_eq_ok] at h
  obtain ⟨c', hcache, h⟩ := h
  obtain ⟨-, rfl⟩ := Prod.mk.inj (Except.ok.inj h)
  exact hcache

end CBlock

/-! ## The cache lists blocks -/

namespace CTransactionDBCache

variable {Hash : Bytes → Uint256} {c c' : CTransactionDBCache} {b d : CBlock} {l : List CBlock}

/-- The cache holds the transaction hashes of the given blocks, each under its block's hash. -/
def ListsBlocks (Hash : Bytes → Uint256) (c : CTransactionDBCache) (l : List CBlock) : Prop :=
  c.mapTxHashByBlockHash.Lists (fun b => b.getHash Hash) (CBlock.txHashes Hash) l

/-- A listed transaction is found, as no block lies under `uint256()`. -/
theorem ListsBlocks.isContainTx (h : c.ListsBlocks Hash l) (hne : ∀ b ∈ l, b.getHash Hash ≠ 0)
    (hb : b ∈ l) {t : Uint256} (ht : t ∈ b.txHashes Hash) : c.isContainTx t = true := by
  have hzero : c.mapTxHashByBlockHash.lookup 0 = none := by
    cases hlook : c.mapTxHashByBlockHash.lookup 0 with
    | none => rfl
    | some hashes =>
      obtain ⟨b', hb', hkey, -⟩ := (h 0 hashes).mp hlook
      exact absurd hkey (hne b' hb')
  unfold CTransactionDBCache.isContainTx
  rw [Bool.and_eq_true]
  constructor
  · rw [Store.any_iff]
    refine ⟨b.getHash Hash, b.txHashes Hash, (h _ _).mpr ⟨b, hb, rfl, rfl⟩, ?_⟩
    rw [Bool.and_eq_true, bne_iff_ne, List.contains_iff_mem]
    exact ⟨hne b hb, ht⟩
  · rw [hzero]
    rfl

theorem ListsBlocks.push {n : ℕ} (hkeys : ((b :: l).map fun b => b.getHash Hash).Nodup)
    (hne : b.vptx ≠ []) (h : c.ListsBlocks Hash (l.take n)) :
    (c.addBlockToCache Hash b).ListsBlocks Hash ((b :: l).take (n + 1)) := by
  unfold ListsBlocks
  rw [addBlockToCache_lookup hne]
  exact Store.Lists.push hkeys h

theorem ListsBlocks.reload {n : ℕ} (hkeys : (l.map fun b => b.getHash Hash).Nodup)
    (hd : l[n]? = some d) (hne : d.vptx ≠ []) (h : c.ListsBlocks Hash (l.take n)) :
    (c.addBlockToCache Hash d).ListsBlocks Hash (l.take (n + 1)) := by
  unfold ListsBlocks
  rw [addBlockToCache_lookup hne]
  exact Store.Lists.reload hkeys hd h

/-- Only the hash of the deleted block counts. -/
theorem ListsBlocks.evict {n : ℕ} {d' : CBlock} (hkeys : (l.map fun b => b.getHash Hash).Nodup)
    (hd : l[n]? = some d) (hsame : d'.getHash Hash = d.getHash Hash)
    (h : c.ListsBlocks Hash (l.take (n + 1))) (hdel : c.deleteBlockFromCache Hash d' = some c') :
    c'.ListsBlocks Hash (l.take n) := by
  obtain ⟨-, -, hmap⟩ := deleteBlockFromCache_eq_some_iff.mp hdel
  unfold ListsBlocks
  rw [hmap, hsame]
  exact Store.Lists.evict hkeys hd h

/-- A block can only be deleted while it is listed. -/
theorem ListsBlocks.pop {n : ℕ} (hkeys : ((b :: l).map fun b => b.getHash Hash).Nodup)
    (h : c.ListsBlocks Hash ((b :: l).take n)) (hdel : c.deleteBlockFromCache Hash b = some c') :
    ∃ m, n = m + 1 ∧ c'.ListsBlocks Hash (l.take m) := by
  obtain ⟨-, hsome, hmap⟩ := deleteBlockFromCache_eq_some_iff.mp hdel
  cases n with
  | zero =>
    obtain ⟨hashes, hhashes⟩ := Option.isSome_iff_exists.mp hsome
    obtain ⟨b', hb', -⟩ := (h _ hashes).mp hhashes
    rw [List.take_zero] at hb'
    cases hb'
  | succ m =>
    refine ⟨m, rfl, ?_⟩
    unfold ListsBlocks
    rw [hmap]
    exact Store.Lists.pop hkeys h

end CTransactionDBCache

/-- Every transaction besides the coinbase runs in the loop. -/
theorem CBlock.Checked.mem_loop {node : Node} {b : CBlock} {view : CAccountViewCache}
    {t : CScriptDBViewCache} {m n : Bool} (hb : b.Checked node view t m n) {tx : CBaseTransaction}
    (htx : tx ∈ b.vptx) (hother : tx.isCoinBase = false) : ∃ i, (tx, i) ∈ b.otherTxs := by
  obtain ⟨r, rest, hv⟩ := hb.coinbase
  unfold CBlock.otherTxs
  rw [hv] at htx ⊢
  rcases List.mem_cons.mp htx with rfl | hmem
  · cases hother
  · obtain ⟨i, hi, rfl⟩ := List.getElem_of_mem hmem
    refine ⟨1 + i, ?_⟩
    rw [List.drop_succ_cons, List.drop_zero, List.mk_add_mem_zipIdx_iff_getElem?]
    exact List.getElem?_eq_getElem hi

/-! ## Calls that fail -/

theorem abort_of_cacheLimitBlock {node : Node} {p : PBlockIndex} {nHeight : ℤ}
    {calls : List StateCall} (h : CBlock.cacheLimitBlock node p nHeight = .error (.fail calls)) :
    ∃ reason, .error reason ∈ calls := by
  unfold CBlock.cacheLimitBlock at h
  cases hq : chainAt p (nHeight - node.cfg.nTxCacheHeight) with
  | none =>
    rw [hq] at h
    cases h
  | some q =>
    rw [hq, Exec.ofOption, Except.ok_bind] at h
    cases hd : node.readBlockFromDisk q with
    | none =>
      rw [hd] at h
      cases h
      exact ⟨_, List.mem_singleton_self _⟩
    | some d =>
      rw [hd] at h
      cases h

/-- From its first write to the cache on, a call that returns false aborts. -/
theorem abort_of_cacheOn {call : TipCall} {node : Node} {b : CBlock} {p : PBlockIndex} {nHeight : ℤ}
    {calls : List StateCall} {c : CTransactionDBCache}
    (h : (call.cacheOn node b p nHeight c).1 = .error (.fail calls)) :
    ∃ reason, .error reason ∈ calls := by
  cases call with
  | connect =>
    unfold TipCall.cacheOn CBlock.connectCacheOn at h
    dsimp only at h
    split at h
    · split at h
      · next e he =>
        cases h
        exact abort_of_cacheLimitBlock he
      · split at h
        · cases h
          exact ⟨_, List.mem_singleton_self _⟩
        · cases h
    · cases h
  | disconnect =>
    unfold TipCall.cacheOn CBlock.disconnectCacheOn at h
    dsimp only at h
    split at h
    · cases h
      exact ⟨_, List.mem_singleton_self _⟩
    · split at h
      · split at h
        · next e he =>
          cases h
          exact abort_of_cacheLimitBlock he
        · cases h
      · cases h

/-- A call that returns false without an abort has not touched the cache. -/
theorem run_cache_of_fail {call : TipCall} {node : Node} {b : CBlock} {vs : Views} {p : PBlockIndex}
    {files : UndoFiles} {calls : List StateCall} {c c' : CTransactionDBCache}
    (h : call.run node b vs p c files = (.error (.fail calls), c'))
    (hcalls : ∀ reason, .error reason ∉ calls) : c' = c := by
  have habort : ∀ q nHeight, (call.cacheOn node b q nHeight c).1 ≠ .error (.fail calls) := by
    intro q nHeight hq
    obtain ⟨reason, hreason⟩ := abort_of_cacheOn hq
    exact hcalls reason hreason
  cases call with
  | connect =>
    unfold TipCall.run CBlock.connectBlockOn at h
    dsimp only at h
    split at h
    · exact (Prod.mk.inj h).2.symm
    · cases (Prod.mk.inj h).1
    · next out nHeight _ =>
      have hne := habort p nHeight
      unfold TipCall.cacheOn at hne
      dsimp only at hne
      rcases hon : b.connectCacheOn node p nHeight c with ⟨x, c₁⟩
      rw [hon] at h hne
      cases x with
      | error e =>
        have he : e = .fail calls := Except.error.inj (Prod.mk.inj h).1
        exact absurd (congrArg Except.error he) hne
      | ok u => cases (Prod.mk.inj h).1
  | disconnect =>
    unfold TipCall.run CBlock.disconnectBlockOn at h
    dsimp only at h
    split at h
    · exact (Prod.mk.inj h).2.symm
    · next vs' q nHeight _ =>
      have hne := habort q nHeight
      unfold TipCall.cacheOn at hne
      dsimp only at hne
      rcases hon : b.disconnectCacheOn node q nHeight c with ⟨x, c₁⟩
      rw [hon] at h hne
      cases x with
      | error e =>
        have he : e = .fail calls := Except.error.inj (Prod.mk.inj h).1
        exact absurd (congrArg Except.error he) hne
      | ok u => cases (Prod.mk.inj h).1

end Dacrs
