import Dacrs.ActiveChain
import Dacrs.CacheWindow
import Dacrs.SampleChain

/-!
# Replay protection

On every chain reached from genesis the transaction cache lists the transactions of the last blocks
after genesis, as many as the window has (`Sound.cached`): a block leaves it when a new one comes, and
comes back when that one goes.  A transaction is only connected within half a window of its valid
height, to either side, so a second copy meets the first one in the cache (`replay_protection`).

Genesis itself is never listed: `ConnectBlock` returns early for it.
-/

open Codec (Bytes)

namespace Dacrs

/-! ## What a transaction's hash covers -/

namespace CBaseTransaction

/-- The hash begins with the version, a tag in version 2, and the valid height. -/
theorem hashPreimage_eq {tx : CBaseTransaction} (h : tx.isCoinBase = false) :
    ∃ rest, tx.hashPreimage = writeVarInt tx.nVersion ++
      ((if tx.nVersion = txVersion2 then [tx.chTxType.tag] else []) ++
        (writeVarInt tx.nValidHeight ++ rest)) := by
  cases tx with
  | reward tx => cases h
  | registerAccount tx =>
    unfold hashPreimage signaturePreimage CRegisterAccountTx.signaturePreimage serialize
      CRegisterAccountTx.serialize nVersion nValidHeight chTxType
    dsimp only
    split
    · simp only [List.append_assoc]
      exact ⟨_, rfl⟩
    · simp only [List.append_assoc, List.nil_append]
      exact ⟨_, rfl⟩
  | transaction tx =>
    unfold hashPreimage signaturePreimage CTransaction.signaturePreimage serialize
      CTransaction.serialize nVersion nValidHeight chTxType
    dsimp only
    split
    · simp only [List.append_assoc]
      exact ⟨_, rfl⟩
    · simp only [List.append_assoc, List.nil_append]
      exact ⟨_, rfl⟩
  | registerApp tx =>
    unfold hashPreimage signaturePreimage CRegisterAppTx.signaturePreimage serialize
      CRegisterAppTx.serialize nVersion nValidHeight chTxType
    dsimp only
    split
    · simp only [List.append_assoc]
      exact ⟨_, rfl⟩
    · simp only [List.append_assoc, List.nil_append]
      exact ⟨_, rfl⟩

/-- Equal hashed bytes: equal valid heights. -/
theorem nValidHeight_of_hashPreimage {tx tx' : CBaseTransaction} (h : tx.isCoinBase = false)
    (h' : tx'.isCoinBase = false) (hr : tx.Reread) (hr' : tx'.Reread)
    (heq : tx.hashPreimage = tx'.hashPreimage) : tx.nValidHeight = tx'.nValidHeight := by
  obtain ⟨rest, hrest⟩ := hashPreimage_eq h
  obtain ⟨rest', hrest'⟩ := hashPreimage_eq h'
  rw [hrest, hrest'] at heq
  obtain ⟨hversion, htail⟩ := varInt32.write_append_inj hr.1 hr'.1 heq
  rw [hversion] at htail
  have hheight : writeVarInt tx.nValidHeight ++ rest = writeVarInt tx'.nValidHeight ++ rest' := by
    split at htail
    · exact (List.cons.inj htail).2
    · exact htail
  exact (varInt32.write_append_inj hr.2 hr'.2 hheight).1

/-- A transaction other than a coinbase lies within half a window of its height. -/
theorem isValidHeight_iff {tx : CBaseTransaction} (h : tx.isCoinBase = false) {nCurHeight n : ℤ} :
    tx.isValidHeight nCurHeight n = true ↔
      tx.nValidHeight ≤ nCurHeight + n.tdiv 2 ∧ nCurHeight - n.tdiv 2 ≤ tx.nValidHeight := by
  have htype : ¬ tx.chTxType = .reward := by
    intro htype
    rw [isCoinBase, htype] at h
    cases h
  unfold isValidHeight
  rw [if_neg htype]
  split
  · next hhigh =>
    constructor
    · intro hf
      cases hf
    · intro hle
      omega
  · split
    · next hlow =>
      constructor
      · intro hf
        cases hf
      · intro hle
        omega
    · constructor
      · intro
        omega
      · intro
        rfl

end CBaseTransaction

/-- Two half windows are at most a window. -/
theorem tdiv_two_add_le (n : ℤ) : n.tdiv 2 + n.tdiv 2 ≤ max n 0 := by
  rcases le_or_gt 0 n with h | h
  · rw [Int.tdiv_eq_ediv_of_nonneg h]
    omega
  · have hneg : n.tdiv 2 = -((-n) / 2) := by
      rw [← Int.tdiv_eq_ediv_of_nonneg (show 0 ≤ -n by omega), Int.neg_tdiv, neg_neg]
    omega

namespace ActiveChain

/-- The hashes of all transactions executed on the chain, coinbases apart. -/
def executed (Hash : Bytes → Uint256) (s : ActiveChain) : List Uint256 :=
  (s.chain ++ [s.genesis.2]).flatMap (CBlock.otherHashes Hash)

/-- What holds of every chain reached from genesis. -/
structure Sound (cfg : SysCfg) (cr : Crypto) (s : ActiveChain) : Prop where
  hash : ∀ e ∈ s.entries, e.2.getHash cr.Hash = e.1.hashBlock
  nonzero : ∀ e ∈ s.entries, e.1.hashBlock ≠ 0
  distinct : (s.entries.map fun e => e.1.hashBlock).Nodup
  height : ∀ (i : ℕ) e, s.entries[i]? = some e → e.1.nHeight = s.blocks.length - i
  genesis : s.genesis.1.hashBlock = cfg.cHashGenesisBlock
  coinbases : s.genesis.2.otherHashes cr.Hash = []
  nonempty : ∀ b ∈ s.chain, b.vptx ≠ []
  reread : ∀ b ∈ s.chain, ∀ tx ∈ b.vptx, tx.Reread
  each : ∀ b ∈ s.chain, (b.otherHashes cr.Hash).Nodup
  /-- the cache lists the last blocks after genesis -/
  cached : s.cTxCache.ListsBlocks cr.Hash (s.chain.take cfg.nTxCacheHeight.toNat)
  /-- no transaction was in the cache when its block came -/
  fresh : Window.Fresh (CBlock.otherHashes cr.Hash) cfg.nTxCacheHeight.toNat s.chain
  /-- every transaction was within its window then -/
  valid : ∀ (i : ℕ) b, s.chain[i]? = some b → ∀ tx ∈ b.vptx, tx.isCoinBase = false →
    tx.isValidHeight (s.blocks.length - i - 1) cfg.nTxCacheHeight = true

section
variable {cfg : SysCfg} {cr : Crypto} {s t : ActiveChain}

theorem Sound.hash_chain (h : s.Sound cfg cr) {i : ℕ} {e : CBlockIndex × CBlock}
    (he : s.blocks[i]? = some e) : e.2.getHash cr.Hash = e.1.hashBlock :=
  h.hash e (List.mem_append_left _ (List.mem_of_getElem? he))

theorem Sound.nonzero_chain (h : s.Sound cfg cr) {b : CBlock} (hb : b ∈ s.chain) :
    b.getHash cr.Hash ≠ 0 := by
  obtain ⟨e, he, rfl⟩ := List.mem_map.mp hb
  rw [h.hash e (List.mem_append_left _ he)]
  exact h.nonzero e (List.mem_append_left _ he)

/-- The hashes of the blocks after genesis. -/
theorem Sound.distinct_chain (h : s.Sound cfg cr) :
    (s.chain.map fun b => b.getHash cr.Hash).Nodup := by
  have heq : (s.chain.map fun b => b.getHash cr.Hash) = s.blocks.map fun e => e.1.hashBlock := by
    unfold chain
    rw [List.map_map]
    exact List.map_congr_left fun e he => h.hash e (List.mem_append_left _ he)
  have hd := h.distinct
  rw [entries, List.map_append] at hd
  rw [heq]
  exact hd.of_append_left

/-! ### Genesis -/

theorem connectGenesisTx_coinbase {node : Node} {nHeight : ℤ} {v v' : CAccountViewCache}
    {item : CBaseTransaction × ℕ} (h : CBlock.connectGenesisTx node nHeight v item = .ok v') :
    item.1.isCoinBase = true := by
  unfold CBlock.connectGenesisTx at h
  split at h
  · next tx htx =>
    rw [htx]
    rfl
  · cases h

theorem genesis_coinbases {node : Node} {nHeight : ℤ} {items : List (CBaseTransaction × ℕ)}
    {v v' : CAccountViewCache}
    (h : items.foldlM (CBlock.connectGenesisTx node nHeight) v = .ok v') :
    ∀ item ∈ items, item.1.isCoinBase = true := by
  induction items generalizing v with
  | nil =>
    intro item hitem
    cases hitem
  | cons item items ih =>
    rw [List.foldlM_cons, Except.bind_eq_ok] at h
    obtain ⟨v₁, h1, h2⟩ := h
    intro item' hitem'
    rcases List.mem_cons.mp hitem' with rfl | hmem
    · exact connectGenesisTx_coinbase h1
    · exact ih h2 item' hmem

/-- Genesis leaves the cache empty, and holds nothing but coinbases. -/
theorem connectGenesis_ok {node : Node} {pIndex : CBlockIndex} {b : CBlock} {vs : Views}
    {cache : CTransactionDBCache} {files : UndoFiles} {out : CBlock.Connected}
    (hgen : b.getHash node.cr.Hash = node.cfg.cHashGenesisBlock)
    (h : b.connectBlock node vs [pIndex] cache files false = .ok out) :
    out.cTxCache = cache ∧ out.pBlockIndex = pIndex ∧ b.otherHashes node.cr.Hash = [] := by
  unfold CBlock.connectBlock at h
  rw [Except.bind_eq_ok] at h
  obtain ⟨_, -, h⟩ := h
  dsimp only at h
  rw [Except.bind_eq_ok] at h
  obtain ⟨_, -, h⟩ := h
  rw [if_pos hgen, Except.bind_eq_ok] at h
  obtain ⟨v, hv, h⟩ := h
  obtain rfl := Except.ok.inj h
  refine ⟨rfl, rfl, ?_⟩
  have hall := genesis_coinbases hv
  unfold CBlock.otherHashes
  rw [List.map_eq_nil_iff, List.filter_eq_nil_iff]
  intro tx htx
  obtain ⟨i, hi, rfl⟩ := List.getElem_of_mem htx
  have hitem := hall (b.vptx[i], i) (by
    rw [List.mk_mem_zipIdx_iff_getElem?]
    exact List.getElem?_eq_getElem hi)
  rw [hitem]
  simp

theorem sound_genesis {node : Node} {pIndex : CBlockIndex} {b : CBlock} {vs : Views}
    {files : UndoFiles} {out : CBlock.Connected} (serves : node.Serves cfg cr [(pIndex, b)])
    (read : node.readBlockFromDisk pIndex = some b)
    (hash : b.getHash cr.Hash = cfg.cHashGenesisBlock) (height : pIndex.nHeight = 0)
    (ok : b.connectBlock node vs [pIndex] .empty files false = .ok out) :
    Sound cfg cr ⟨[], (out.pBlockIndex, b), out.views, out.cTxCache, out.files⟩ := by
  obtain ⟨rfl, rfl, hindex, -, -⟩ := serves
  have hread := Node.getHash_of_read read
  obtain ⟨hcache, hentry, hnone⟩ := connectGenesis_ok hash ok
  rw [hcache, hentry]
  constructor
  case hash =>
    intro e he
    obtain rfl := List.mem_singleton.mp he
    exact hread
  case nonzero =>
    intro e he
    obtain rfl := List.mem_singleton.mp he
    exact (hindex _ [] List.suffix_rfl).1
  case distinct => exact List.nodup_singleton _
  case height =>
    intro i e he
    cases i with
    | zero =>
      obtain rfl := Option.some.inj he
      exact height
    | succ i => cases he
  case genesis => exact hread.symm.trans hash
  case coinbases => exact hnone
  case nonempty =>
    intro b hb
    cases hb
  case reread =>
    intro b hb
    cases hb
  case each =>
    intro b hb
    cases hb
  case cached =>
    intro k v
    constructor
    · intro h
      rw [show (CTransactionDBCache.empty).mapTxHashByBlockHash = ∅ from rfl] at h
      simp at h
    · rintro ⟨b, hb, -⟩
      rw [chain, List.map_nil, List.take_nil] at hb
      cases hb
  case fresh =>
    intro i e he
    cases he
  case valid =>
    intro i b hb
    cases hb

/-! ### Connecting -/

/-- What a block that was connected to the tip has passed. -/
structure Connects (cr : Crypto) (s : ActiveChain) (node : Node) (pIndex : CBlockIndex) (b : CBlock)
    (out : CBlock.Connected) : Prop where
  nonempty : b.vptx ≠ []
  each : (b.otherHashes cr.Hash).Nodup
  entry : out.pBlockIndex.hashBlock = pIndex.hashBlock ∧ out.pBlockIndex.nHeight = pIndex.nHeight
  cache : b.connectCache node (pIndex :: s.path) pIndex.nHeight s.cTxCache = .ok out.cTxCache
  asked : ∀ tx ∈ b.vptx, tx.isCoinBase = false →
    ¬ s.cTxCache.isContainTx (tx.getHash cr.Hash) ∧
      tx.isValidHeight s.blocks.length node.cfg.nTxCacheHeight = true

/-- A block over the tip is not genesis again. -/
theorem Sound.not_genesis {node : Node} {pIndex : CBlockIndex} {b : CBlock} (hs : s.Sound cfg cr)
    (serves : node.Serves cfg cr ((pIndex, b) :: s.entries))
    (read : node.readBlockFromDisk pIndex = some b) :
    b.getHash node.cr.Hash ≠ node.cfg.cHashGenesisBlock := by
  have hnodup := serves.nodup
  rw [List.map_cons, List.nodup_cons] at hnodup
  rw [Node.getHash_of_read read, serves.cfg, ← hs.genesis]
  intro heq
  apply hnodup.1
  rw [heq]
  exact List.mem_map_of_mem (List.mem_append_right _ (List.mem_singleton_self _))

theorem connects_of_ok {node : Node} {pIndex : CBlockIndex} {b : CBlock} {out : CBlock.Connected}
    (hs : s.Sound cfg cr) (serves : node.Serves cfg cr ((pIndex, b) :: s.entries))
    (read : node.readBlockFromDisk pIndex = some b)
    (ok : b.connectBlock node s.views (pIndex :: s.path) s.cTxCache s.files false = .ok out) :
    Connects cr s node pIndex b out := by
  have hgen := hs.not_genesis serves read
  obtain ⟨rfl, rfl, hindex, -, -⟩ := serves
  obtain ⟨_, _, vs', undo, hp, hcheck, hprev, hviews, hrec⟩ := CBlock.connectBlock_ok ok hgen
  obtain ⟨rfl, rfl⟩ := List.cons.inj hp
  obtain ⟨hentry, hheight, hcache⟩ := CBlock.connectRecords_ok hrec
  obtain ⟨st, e, matured, hst, -⟩ := CBlock.connectViews_ok hviews
  obtain ⟨hrun, -⟩ := CBlock.connectTxs_ok hst
  -- the best block is the tip, at the height of the chain
  have hbest : CBlock.bestHeight node s.views = .ok (s.blocks.length : ℤ) := by
    unfold CBlock.bestHeight
    rw [← hprev]
    cases hes : s.entries with
    | nil =>
      rw [entries, List.append_eq_nil_iff] at hes
      cases hes.2
    | cons top rest =>
      have htop := (hindex top rest (by rw [hes]; exact List.suffix_cons _ _)).2
      have hpath : s.path = top.1 :: rest.map Prod.fst := by
        rw [path, hes]
        rfl
      rw [hpath, PBlockIndex.hash, htop]
      have hzero := hs.height 0 top (by rw [hes]; rfl)
      rw [List.map_cons]
      dsimp only
      rw [hzero]
      simp
  have hasked := CBlock.connectTxs_checked hbest hrun
  obtain ⟨r, rest, hv⟩ := hcheck.coinbase
  refine ⟨?_, ?_, ⟨hentry, hheight⟩, hcache, ?_⟩
  · rw [hv]
    exact List.cons_ne_nil _ _
  · exact hcheck.nodup.sublist (List.filter_sublist.map _)
  · intro tx htx hother
    obtain ⟨i, hi⟩ := hcheck.mem_loop htx hother
    exact hasked (tx, i) hi

/-- The cache after a block has come. -/
theorem cached_connect {node : Node} {pIndex : CBlockIndex} {b : CBlock} {c : CTransactionDBCache}
    (hs : s.Sound node.cfg node.cr) (hne : b.vptx ≠ [])
    (hkeys : ((b :: s.chain).map fun b => b.getHash node.cr.Hash).Nodup)
    (hread : b.getHash node.cr.Hash = pIndex.hashBlock)
    (hheight : pIndex.nHeight = s.blocks.length + 1)
    (h : b.connectCache node (pIndex :: s.path) pIndex.nHeight s.cTxCache = .ok c) :
    c.ListsBlocks node.cr.Hash ((b :: s.chain).take node.cfg.nTxCacheHeight.toNat) := by
  have hpush := CTransactionDBCache.ListsBlocks.push hkeys hne hs.cached
  have hlen : (b :: s.chain).length = s.blocks.length + 1 := by
    rw [List.length_cons, chain, List.length_map]
  rcases CBlock.connectCache_ok h with ⟨hle, rfl⟩ | ⟨hlt, q, d, hq, hd, hdel⟩
  · -- the window is not full: nothing leaves it
    rw [List.take_of_length_le (by omega)] at hpush ⊢
    exact hpush
  · rw [hheight] at hq hlt
    have hpath : pIndex :: s.path = (((pIndex, b) :: s.blocks) ++ [s.genesis]).map Prod.fst := rfl
    rw [hpath] at hq
    have hes : (s.blocks.length + 1 : ℤ) = ((pIndex, b) :: s.blocks).length := by
      rw [List.length_cons]
      push_cast
      rfl
    rw [hes] at hq hlt
    obtain ⟨-, e, he, rfl⟩ := chainAt_of_pos hlt hq
    have hb : (b :: s.chain)[node.cfg.nTxCacheHeight.toNat]? = some e.2 := by
      have hmap := congrArg (Option.map Prod.snd) he
      rw [← List.getElem?_map] at hmap
      exact hmap
    have hsame : d.getHash node.cr.Hash = e.2.getHash node.cr.Hash := by
      rw [Node.getHash_of_read hd]
      cases hi : node.cfg.nTxCacheHeight.toNat with
      | zero =>
        rw [hi] at he
        obtain rfl := Option.some.inj he
        exact hread.symm
      | succ i =>
        rw [hi, List.getElem?_cons_succ] at he
        exact (hs.hash_chain he).symm
    exact CTransactionDBCache.ListsBlocks.evict hkeys hb hsame hpush hdel

theorem Sound.connect {node : Node} {pIndex : CBlockIndex} {b : CBlock} {out : CBlock.Connected}
    (hs : s.Sound cfg cr) (serves : node.Serves cfg cr ((pIndex, b) :: s.entries))
    (read : node.readBlockFromDisk pIndex = some b)
    (height : pIndex.nHeight = s.blocks.length + 1)
    (ok : b.connectBlock node s.views (pIndex :: s.path) s.cTxCache s.files false = .ok out) :
    Sound cfg cr
      ⟨(out.pBlockIndex, b) :: s.blocks, s.genesis, out.views, out.cTxCache, out.files⟩ := by
  have hread := Node.getHash_of_read read
  have hnodup := serves.nodup
  have hc := connects_of_ok hs serves read ok
  obtain ⟨hentry, hout⟩ := hc.entry
  obtain ⟨rfl, rfl, hindex, -, hreread⟩ := serves
  have hne := (hindex _ s.entries List.suffix_rfl).1
  have hkeys : ((b :: s.chain).map fun b => b.getHash node.cr.Hash).Nodup := by
    rw [List.map_cons, List.nodup_cons] at hnodup ⊢
    refine ⟨?_, hs.distinct_chain⟩
    intro hmem
    apply hnodup.1
    obtain ⟨b', hb', hsame⟩ := List.mem_map.mp hmem
    obtain ⟨e, he, rfl⟩ := List.mem_map.mp hb'
    have hein : e ∈ s.entries := List.mem_append_left _ he
    rw [List.mem_map]
    exact ⟨e, hein, by rw [← hs.hash e hein, hsame, hread]⟩
  constructor
  case hash =>
    intro e he
    rcases List.mem_cons.mp he with rfl | he
    · exact hread.trans hentry.symm
    · exact hs.hash e he
  case nonzero =>
    intro e he
    rcases List.mem_cons.mp he with rfl | he
    · rw [hentry]
      exact hne
    · exact hs.nonzero e he
  case distinct =>
    rw [List.map_cons] at hnodup
    show ((out.pBlockIndex.hashBlock) :: s.entries.map fun e => e.1.hashBlock).Nodup
    rw [hentry]
    exact hnodup
  case height =>
    intro i e he
    cases i with
    | zero =>
      obtain rfl := Option.some.inj he
      rw [hout, height, List.length_cons]
      push_cast
      ring
    | succ i =>
      have hi := hs.height i e he
      rw [hi, List.length_cons]
      push_cast
      ring
  case genesis => exact hs.genesis
  case coinbases => exact hs.coinbases
  case nonempty =>
    intro b' hb'
    rcases List.mem_cons.mp hb' with rfl | hb'
    · exact hc.nonempty
    · exact hs.nonempty b' hb'
  case reread =>
    intro b' hb'
    rcases List.mem_cons.mp hb' with rfl | hb'
    · exact hreread _ _ read
    · exact hs.reread b' hb'
  case each =>
    intro b' hb'
    rcases List.mem_cons.mp hb' with rfl | hb'
    · exact hc.each
    · exact hs.each b' hb'
  case cached => exact cached_connect hs hc.nonempty hkeys hread height hc.cache
  case fresh =>
    apply hs.fresh.cons
    intro b' hb' t ht ht'
    obtain ⟨tx, htx, hother, rfl⟩ := CBlock.mem_otherHashes.mp ht
    apply (hc.asked tx htx hother).1
    apply hs.cached.isContainTx
    · intro b'' hb''
      exact hs.nonzero_chain (List.mem_of_mem_take hb'')
    · exact hb'
    · exact CBlock.otherHashes_subset ht'
  case valid =>
    intro i b' hb' tx htx hother
    cases i with
    | zero =>
      obtain rfl := Option.some.inj hb'
      have hnow := (hc.asked tx htx hother).2
      rw [List.length_cons]
      push_cast
      rw [sub_zero, add_sub_cancel_right]
      exact hnow
    | succ i =>
      have hold := hs.valid i b' hb' tx htx hother
      rw [List.length_cons]
      push_cast
      rw [add_sub_add_right_eq_sub]
      exact hold

/-! ### Disconnecting -/

/-- The cache after the tip has gone. -/
theorem cached_disconnect {node : Node} {e : CBlockIndex × CBlock}
    {rest : List (CBlockIndex × CBlock)} {c : CTransactionDBCache}
    (hs : s.Sound node.cfg node.cr) (hblocks : s.blocks = e :: rest)
    (hdisk : ∀ e ∈ s.entries, ∀ c, node.readBlockFromDisk e.1 = some c → c = e.2)
    (h : e.2.disconnectCache node ((rest ++ [s.genesis]).map Prod.fst) e.1.nHeight s.cTxCache
      = .ok c) :
    c.ListsBlocks node.cr.Hash ((rest.map Prod.snd).take node.cfg.nTxCacheHeight.toNat) := by
  have hchain : s.chain = e.2 :: rest.map Prod.snd := by
    rw [chain, hblocks, List.map_cons]
  have hcached := hs.cached
  have hkeys := hs.distinct_chain
  rw [hchain] at hcached hkeys
  have hheight : e.1.nHeight = rest.length + 1 := by
    have hzero := hs.height 0 e (by rw [entries, hblocks]; rfl)
    rw [hzero, hblocks, List.length_cons]
    push_cast
    ring
  obtain ⟨c₁, hdel, hrest⟩ := CBlock.disconnectCache_ok h
  obtain ⟨m, hm, hpop⟩ := hcached.pop hkeys hdel
  rw [hm]
  rcases hrest with ⟨hle, rfl⟩ | ⟨hlt, q, d, hq, hd, rfl⟩
  · -- the window reaches down to genesis: nothing comes back
    have hlen : (rest.map Prod.snd).length ≤ m := by
      rw [List.length_map]
      omega
    rw [List.take_of_length_le hlen] at hpop
    rw [List.take_of_length_le (Nat.le_succ_of_le hlen)]
    exact hpop
  · have hshift : e.1.nHeight - node.cfg.nTxCacheHeight
        = rest.length - (node.cfg.nTxCacheHeight - 1) := by omega
    rw [hshift] at hq
    obtain ⟨-, e', he', rfl⟩ := chainAt_of_pos (by omega) hq
    have hm' : (node.cfg.nTxCacheHeight - 1).toNat = m := by omega
    rw [hm'] at he'
    have hin : e' ∈ s.entries := by
      rw [entries, hblocks]
      exact List.mem_append_left _ (List.mem_cons_of_mem _ (List.mem_of_getElem? he'))
    obtain rfl := hdisk e' hin d hd
    have hb : (rest.map Prod.snd)[m]? = some e'.2 := by
      rw [List.getElem?_map, he']
      rfl
    apply hpop.reload (List.nodup_cons.mp hkeys).2 hb
    apply hs.nonempty
    rw [hchain]
    exact List.mem_cons_of_mem _ (List.mem_of_getElem? hb)

theorem Sound.disconnect {node : Node} {e : CBlockIndex × CBlock}
    {rest : List (CBlockIndex × CBlock)} {vs : Views} {cache : CTransactionDBCache}
    (hs : s.Sound cfg cr) (hblocks : s.blocks = e :: rest) (serves : node.Serves cfg cr s.entries)
    (ok : e.2.disconnectBlock node s.views s.path s.cTxCache s.files = .ok (vs, cache)) :
    Sound cfg cr ⟨rest, s.genesis, vs, cache, s.files⟩ := by
  obtain ⟨rfl, rfl, -, hdisk, -⟩ := serves
  have hentries : s.entries = e :: (rest ++ [s.genesis]) := by
    rw [entries, hblocks, List.cons_append]
  have hchain : s.chain = e.2 :: rest.map Prod.snd := by
    rw [chain, hblocks, List.map_cons]
  have hlen : s.blocks.length = rest.length + 1 := by
    rw [hblocks, List.length_cons]
  have hpath : s.path = e.1 :: (rest ++ [s.genesis]).map Prod.fst := by
    rw [path, hentries, List.map_cons]
  have hsub : ∀ e' ∈ rest ++ [s.genesis], e' ∈ s.entries := by
    intro e' he'
    rw [hentries]
    exact List.mem_cons_of_mem _ he'
  have hsubchain : ∀ b ∈ rest.map Prod.snd, b ∈ s.chain := by
    intro b hb
    rw [hchain]
    exact List.mem_cons_of_mem _ hb
  rw [hpath] at ok
  constructor
  case hash => exact fun e' he' => hs.hash e' (hsub e' he')
  case nonzero => exact fun e' he' => hs.nonzero e' (hsub e' he')
  case distinct =>
    have hd := hs.distinct
    rw [hentries, List.map_cons, List.nodup_cons] at hd
    exact hd.2
  case height =>
    intro i e' he'
    have hi := hs.height (i + 1) e' (by
      rw [hentries, List.getElem?_cons_succ]
      exact he')
    rw [hi, hlen]
    push_cast
    ring
  case genesis => exact hs.genesis
  case coinbases => exact hs.coinbases
  case nonempty => exact fun b hb => hs.nonempty b (hsubchain b hb)
  case reread => exact fun b hb => hs.reread b (hsubchain b hb)
  case each => exact fun b hb => hs.each b (hsubchain b hb)
  case cached => exact cached_disconnect hs hblocks hdisk (CBlock.disconnectBlock_ok ok)
  case fresh =>
    have hf := hs.fresh
    rw [hchain] at hf
    exact hf.tail
  case valid =>
    intro i b hb tx htx hother
    have hi := hs.valid (i + 1) b (by
      rw [hchain, List.getElem?_cons_succ]
      exact hb) tx htx hother
    rw [hlen] at hi
    push_cast at hi
    rw [add_sub_add_right_eq_sub] at hi
    exact hi

/-- Every chain reached from genesis is sound. -/
theorem ReachableIf.sound {Meets : ActiveChain → ChainCall → Prop}
    (h : ReachableIf cfg cr Meets s) : s.Sound cfg cr := by
  induction h with
  | genesis serves read hash height ok => exact sound_genesis serves read hash height ok
  | step _ _ hstep ih =>
    cases hstep with
    | connect serves read height ok => exact ih.connect serves read height ok
    | disconnect blocks serves ok => exact ih.disconnect blocks serves ok
    | failed ends goesOn =>
      rw [run_cache_of_fail ends goesOn]
      exact ih

/-! ### No replay -/

/-- No two transactions of the chain are told apart by their hashed bytes but not by their hash. -/
def CollisionFree (Hash : Bytes → Uint256) (s : ActiveChain) : Prop :=
  ∀ b ∈ s.chain, ∀ b' ∈ s.chain, ∀ tx ∈ b.vptx, ∀ tx' ∈ b'.vptx,
    Hash tx.hashPreimage = Hash tx'.hashPreimage → tx.hashPreimage = tx'.hashPreimage

/-- Two copies of a transaction are at most a window apart. -/
theorem Sound.near (hs : s.Sound cfg cr) (hfree : s.CollisionFree cr.Hash) :
    Window.Near (CBlock.otherHashes cr.Hash) cfg.nTxCacheHeight.toNat s.chain := by
  intro i j b b' hb hb' hij t ht ht'
  obtain ⟨tx, htx, hother, rfl⟩ := CBlock.mem_otherHashes.mp ht
  obtain ⟨tx', htx', hother', hsame⟩ := CBlock.mem_otherHashes.mp ht'
  have hmem := List.mem_of_getElem? hb
  have hmem' := List.mem_of_getElem? hb'
  have hheight : tx'.nValidHeight = tx.nValidHeight :=
    CBaseTransaction.nValidHeight_of_hashPreimage hother' hother (hs.reread b' hmem' tx' htx')
      (hs.reread b hmem tx htx) (hfree b' hmem' b hmem tx' htx' tx htx hsame)
  have hv := (CBaseTransaction.isValidHeight_iff hother).mp (hs.valid i b hb tx htx hother)
  have hv' := (CBaseTransaction.isValidHeight_iff hother').mp (hs.valid j b' hb' tx' htx' hother')
  rw [hheight] at hv'
  have htwo := tdiv_two_add_le cfg.nTxCacheHeight
  omega

/-- On every chain reached from genesis, the transaction cache lists exactly the transactions of the
last blocks after genesis, a window long, and no transaction but a coinbase has been executed twice
on the chain. -/
theorem replay_protection (h : Reachable cfg cr s) :
    s.cTxCache.ListsBlocks cr.Hash (s.chain.take cfg.nTxCacheHeight.toNat) ∧
      (s.CollisionFree cr.Hash → (s.executed cr.Hash).Nodup) := by
  have hs : s.Sound cfg cr := ReachableIf.sound h
  refine ⟨hs.cached, ?_⟩
  intro hfree
  unfold executed
  rw [List.flatMap_append, List.flatMap_singleton, hs.coinbases, List.append_nil]
  exact Window.nodup_tags hs.fresh (hs.near hfree) hs.each

end

/-! ### A chain -/

open Sample in
theorem genesisBlock_serves :
    (chainNode [withEntry genesisBlock]).Serves chainCfg crypto [withEntry genesisBlock] :=
  chainNode_serves (by decide +kernel) (by decide +kernel)
    (by unfold CBaseTransaction.Reread varInt32; decide +kernel)

open Sample in
/-- Genesis of the sample chain, connected. -/
theorem genesisRun_reachable {Meets : ActiveChain → ChainCall → Prop} {g : CBlock.Connected}
    (h : genesisRun = .ok g) : ReachableIf chainCfg crypto Meets
      ⟨[], withEntry genesisBlock, g.views, g.cTxCache, g.files⟩ := by
  obtain ⟨-, hentry, -⟩ := connectGenesis_ok (by rfl) h
  have hreach : ReachableIf chainCfg crypto Meets
      ⟨[], (g.pBlockIndex, genesisBlock), g.views, g.cTxCache, g.files⟩ :=
    .genesis genesisBlock_serves (by decide +kernel) rfl (by decide +kernel) h
  rw [hentry] at hreach
  exact hreach

open Sample in
/-- Genesis can be connected, and its coinbases are not in the cache. -/
theorem genesis_reachable : ∃ s, Reachable chainCfg crypto s ∧ s.chain = [] ∧
    s.genesis.2 = genesisBlock ∧ s.cTxCache = .empty := by
  obtain ⟨out, hout⟩ := Except.exists_of_toOption
    (show genesisRun.toOption.isSome = true by decide +kernel)
  have hcache := (connectGenesis_ok (by rfl) hout).1
  exact ⟨_, genesisRun_reachable hout, rfl, rfl, hcache⟩

/-- The cache never has genesis, although genesis is among the last blocks. -/
theorem genesis_not_cached : ¬ ∀ (cfg : SysCfg) (cr : Crypto) (s : ActiveChain),
    Reachable cfg cr s →
      s.cTxCache.ListsBlocks cr.Hash ((s.chain ++ [s.genesis.2]).take cfg.nTxCacheHeight.toNat) ∧
        (s.CollisionFree cr.Hash → (s.executed cr.Hash).Nodup) := by
  intro h
  obtain ⟨s, hs, hchain, hgenesis, hcache⟩ := genesis_reachable
  have hlists := (h _ _ s hs).1
  rw [hchain, hgenesis, hcache] at hlists
  have hthere := (hlists _ _).mpr ⟨Sample.genesisBlock, List.mem_singleton_self _, rfl, rfl⟩
  have hempty : CTransactionDBCache.empty.mapTxHashByBlockHash = ∅ := rfl
  rw [hempty] at hthere
  simp at hthere

open Sample in
/-- A first block connected on top. -/
theorem firstRun_step {b : CBlock} {out : CBlock.Connected}
    (hserves : (chainNode [withEntry b, withEntry genesisBlock]).Serves chainCfg crypto
      [withEntry b, withEntry genesisBlock])
    (hread : (chainNode [withEntry b, withEntry genesisBlock]).readBlockFromDisk (entryOf b) = some b)
    (hheight : (entryOf b).nHeight = 1) (h : firstRun b = .ok out) :
    ∃ g, genesisRun = .ok g ∧
      Step chainCfg crypto ⟨[], withEntry genesisBlock, g.views, g.cTxCache, g.files⟩
        (.connect (chainNode [withEntry b, withEntry genesisBlock]) (entryOf b) b)
        ⟨[(out.pBlockIndex, b)], withEntry genesisBlock, out.views, out.cTxCache, out.files⟩ := by
  unfold firstRun at h
  rw [Except.bind_eq_ok] at h
  obtain ⟨g, hg, hconnect⟩ := h
  exact ⟨g, hg, .connect hserves hread hheight hconnect⟩

open Sample in
theorem registerBlock_serves : (chainNode [withEntry registerBlock, withEntry genesisBlock]).Serves
    chainCfg crypto [withEntry registerBlock, withEntry genesisBlock] :=
  chainNode_serves (by decide +kernel) (by decide +kernel)
    (by unfold CBaseTransaction.Reread varInt32; decide +kernel)

open Sample in
/-- A block with a transfer and a registration over genesis. -/
theorem register_reachable : ∃ s, Reachable chainCfg crypto s ∧ s.chain = [registerBlock] := by
  obtain ⟨out, hout⟩ := Except.exists_of_toOption
    (show (firstRun registerBlock).toOption.isSome = true by decide +kernel)
  obtain ⟨g, hg, hstep⟩ := firstRun_step registerBlock_serves (by decide +kernel)
    (by decide +kernel) hout
  exact ⟨_, .step (genesisRun_reachable hg) trivial hstep, rfl⟩

open Sample in
theorem replay_protection_register : ∃ s, Reachable chainCfg crypto s ∧
    s.cTxCache.ListsBlocks crypto.Hash [registerBlock] ∧ (s.executed crypto.Hash).Nodup := by
  obtain ⟨s, hs, hchain⟩ := register_reachable
  obtain ⟨hcached, hnodup⟩ := replay_protection hs
  refine ⟨s, hs, ?_, hnodup ?_⟩
  · rw [hchain] at hcached
    exact hcached
  · unfold CollisionFree
    rw [hchain]
    decide +kernel

end ActiveChain

end Dacrs
