import Dacrs.Identity
import Dacrs.Replay

/-!
# Registration ids on a chain

`Identity` for whole blocks and for runs of connected and disconnected blocks.  On every chain reached
by calls that meet `IdsFree` the ids and the accounts agree, and every id in use was registered by a
block of the chain (`ids_consistent`).  Without the condition they part: disconnecting a registration
whose account had a balance leaves the account with an id that leads nowhere (`undone_id_stays`).
-/

open Codec (Bytes)

namespace Dacrs

/-- Positions of a block with at most 2^16 transactions have different ids. -/
theorem CRegID.ofPosition_inj {nHeight : ℤ} {i j : ℕ} (hi : i < 2 ^ 16) (hj : j < 2 ^ 16)
    (h : CRegID.ofPosition nHeight i = .ofPosition nHeight j) : i = j := by
  have hindex := congrArg (fun r => r.ushIndex.toNat) h
  have hnat : ∀ n : ℕ, n < 2 ^ 16 → (UInt16.ofInt n).toNat = n := by
    intro n hn
    have hmod : ((n : ℤ) % 2 ^ 16).toNat = n := by omega
    rw [UInt16.ofInt, hmod]
    exact UInt16.toNat_ofNat_of_lt hn
  have hi' := hnat i hi
  have hj' := hnat j hj
  unfold CRegID.ofPosition at hindex
  dsimp only at hindex
  omega

namespace CBlock

variable {node : Node} {b : CBlock} {vs : Views} {p : PBlockIndex} {nHeight : ℤ}
  {cache : CTransactionDBCache} {ids : Set CRegID}

/-! ## Connecting -/

/-- The ids a block registers after its coinbase. -/
def registrations (b : CBlock) (nHeight : ℤ) : Set CRegID :=
  {r | ∃ item ∈ b.otherTxs, r ∈ item.1.registers item.2 nHeight}

/-- Every transaction of the block finds its id free when its turn comes. -/
def ConnectsFree (node : Node) (b : CBlock) (nHeight : ℤ) (cache : CTransactionDBCache) (vs : Views) :
    Prop :=
  ∀ pre item post st, b.otherTxs = pre ++ item :: post →
    pre.foldlM (b.connectTx node nHeight cache) ⟨vs, 0, 0, []⟩ = .ok st →
    item.1.IdFree node item.2 nHeight st.views.view

/-- What is read for the entries of a path starts with a coinbase. -/
def CoinbasesFirst (node : Node) (p : PBlockIndex) : Prop :=
  ∀ q ∈ p, ∀ c, node.readBlockFromDisk q = some c → ∀ tx, c.firstTx = .ok tx → ∃ r, tx = .reward r

theorem connectTxs_idsIn {st : TxsRun} (h : vs.view.IdsIn ids)
    (hfree : b.ConnectsFree node nHeight cache vs)
    (hrun : b.connectTxs node nHeight cache vs = .ok st) :
    st.views.view.IdsIn (b.registrations nHeight ∪ ids) := by
  have hfold := (connectTxs_ok hrun).1
  apply Except.foldlM_prefix_invariant
    (fun pre st => st.views.view.IdsIn ({r | ∃ item ∈ pre, r ∈ item.1.registers item.2 nHeight} ∪ ids))
    (b.connectTx node nHeight cache) ?_ ?_ hfold
  · intro pre item post st st' hl hpre hst hstep
    obtain ⟨e, llFuel, he, -, -, rfl⟩ := connectTx_ok hstep
    have hnext := CBaseTransaction.executeTx_idsIn hst (hfree pre item post st hl hpre) he
    apply hnext.mono
    rintro r (hr | ⟨item', hitem', hr⟩ | hr)
    · exact .inl ⟨item, List.mem_append_right _ (List.mem_singleton_self _), hr⟩
    · exact .inl ⟨item', List.mem_append_left _ hitem', hr⟩
    · exact .inr hr
  · apply h.mono
    exact Set.subset_union_right

theorem matureIndex_subset {q : PBlockIndex} (h : matureIndex p = .ok q) : q ⊆ p := by
  unfold matureIndex at h
  split at h
  · cases h
  · obtain rfl := Except.ok.inj h
    exact List.drop_subset _ _

/-- Only coinbases are paid late. -/
theorem connectMature_idsIn {e : Executed} {vs' : Views} {matured : List CTxUndo}
    (h : e.views.view.IdsIn ids) (hfirst : CoinbasesFirst node p)
    (hm : connectMature node p nHeight e = .ok (vs', matured)) : vs'.view.IdsIn ids := by
  unfold connectMature at hm
  split at hm
  · rw [Except.bind_eq_ok] at hm
    obtain ⟨q, hq, hm⟩ := hm
    have hsub := matureIndex_subset hq
    cases q with
    | nil =>
      obtain ⟨rfl, -⟩ := Prod.mk.inj (Except.ok.inj hm)
      exact h
    | cons q rest =>
      dsimp only at hm
      rw [Except.bind_eq_ok] at hm
      obtain ⟨c, hc, hm⟩ := hm
      have hread := (Exec.ofOption_eq_ok (Exec.fails_doS _ _ _ _)).mp hc
      rw [Except.bind_eq_ok] at hm
      obtain ⟨tx, htx, hm⟩ := hm
      rw [Except.bind_eq_ok] at hm
      obtain ⟨e', he', hm⟩ := hm
      obtain ⟨rfl, -⟩ := Prod.mk.inj (Except.ok.inj hm)
      obtain ⟨r, rfl⟩ := hfirst q (hsub List.mem_cons_self) c hread tx htx
      have hkeyed := CBaseTransaction.executeTx_wellKeyed h.keyed he'
      exact h.kept hkeyed (CRewardTransaction.executeTx_idsKept h.keyed he')
  · obtain ⟨rfl, -⟩ := Prod.mk.inj (Except.ok.inj hm)
    exact h

theorem connectViews_idsIn {out : Views × CBlockUndo} (h : vs.view.IdsIn ids)
    (hfree : b.ConnectsFree node nHeight cache vs) (hfirst : CoinbasesFirst node p)
    (hrun : b.connectViews node vs p nHeight cache = .ok out) :
    out.1.view.IdsIn (b.registrations nHeight ∪ ids) := by
  obtain ⟨st, e, matured, hst, he, hm, -⟩ := connectViews_ok hrun
  obtain ⟨tx, -, -, -, -, hexec⟩ := connectReward_ok he
  have htxs := connectTxs_idsIn h hfree hst
  have hkeyed := CBaseTransaction.executeTx_wellKeyed htxs.keyed hexec
  have hreward := htxs.kept hkeyed (CRewardTransaction.executeTx_idsKept htxs.keyed hexec)
  exact connectMature_idsIn hreward hfirst hm

/-- The views a connected block leaves behind, past the best block. -/
theorem connectRecords_view {pIndex : CBlockIndex} {pPrev : PBlockIndex} {files : UndoFiles}
    {undo : CBlockUndo} {out : Connected}
    (h : b.connectRecords node pIndex pPrev cache files vs undo = .ok out) :
    out.views.view = vs.view.setBestBlock pIndex.hashBlock := by
  unfold connectRecords at h
  dsimp only at h
  rw [Except.bind_eq_ok] at h
  obtain ⟨⟨pIndex', files'⟩, -, h⟩ := h
  rw [Except.bind_eq_ok] at h
  obtain ⟨c, -, h⟩ := h
  obtain rfl := Except.ok.inj h
  unfold connectIndex
  split
  · rfl
  · rfl

/-! ## Disconnecting -/

/-- The views once the matured coinbase and the block's own are taken back. -/
def disconnectCoinbases (node : Node) (b : CBlock) (vs : Views) (p : PBlockIndex) (nHeight : ℤ)
    (undo : CBlockUndo) : Exec (Views × CBlockUndo) := do
  let (vs, undo) ← disconnectMature node p nHeight vs undo
  let tx ← b.firstTx
  let cTxUndo ← lastUndo undo
  let vs ← tx.undoExecuteTx node 0 nHeight vs cTxUndo
  return (vs, undo)

/-- Every undo of the block after that may take its ids away. -/
def DisconnectsFree (node : Node) (b : CBlock) (vs : Views) (p : PBlockIndex) (nHeight : ℤ)
    (undo : CBlockUndo) : Prop :=
  ∀ vs₁ undo₁, disconnectCoinbases node b vs p nHeight undo = .ok (vs₁, undo₁) →
    ∀ pre item post vs₂, (b.otherTxs.zip undo₁).reverse = pre ++ item :: post →
      pre.foldlM (disconnectTx node nHeight) vs₁ = .ok vs₂ →
      item.1.1.UndoIdFree node item.1.2 nHeight vs₂.view item.2

theorem disconnectViews_ok {undo : CBlockUndo} {ws : Views}
    (h : b.disconnectViews node vs p nHeight undo = .ok ws) :
    ∃ vs₁ undo₁, disconnectCoinbases node b vs p nHeight undo = .ok (vs₁, undo₁) ∧
      (b.otherTxs.zip undo₁).reverse.foldlM (disconnectTx node nHeight) vs₁ = .ok ws := by
  unfold disconnectViews at h
  rw [Except.bind_eq_ok] at h
  obtain ⟨⟨vs', undo'⟩, hm, h⟩ := h
  dsimp only at h
  rw [Except.bind_eq_ok] at h
  obtain ⟨tx, htx, h⟩ := h
  rw [Except.bind_eq_ok] at h
  obtain ⟨cTxUndo, hlast, h⟩ := h
  rw [Except.bind_eq_ok] at h
  obtain ⟨vs₁, hundo, h⟩ := h
  refine ⟨vs₁, undo', ?_, h⟩
  unfold disconnectCoinbases
  rw [hm, Except.ok_bind]
  dsimp only
  rw [htx, Except.ok_bind, hlast, Except.ok_bind, hundo]
  rfl

/-- A coinbase's undo only puts balances back. -/
theorem undoReward_idsIn {tx : CRewardTransaction} {nIndex : ℤ} {undo : CTxUndo} {ws : Views}
    (h : vs.view.IdsIn ids)
    (hundo : (CBaseTransaction.reward tx).undoExecuteTx node nIndex nHeight vs undo = .ok ws) :
    ws.view.IdsIn ids := by
  have hfree : (CBaseTransaction.reward tx).UndoIdFree node nIndex nHeight vs.view undo := trivial
  exact (CBaseTransaction.undoExecuteTx_idsIn h hfree hundo).mono Set.sdiff_subset

theorem disconnectMature_idsIn {undo undo' : CBlockUndo} {ws : Views} (h : vs.view.IdsIn ids)
    (hfirst : CoinbasesFirst node p)
    (hm : disconnectMature node p nHeight vs undo = .ok (ws, undo')) :
    ws.view.IdsIn ids ∧ undo.length ≤ undo'.length + 1 := by
  have hdrop : undo.length ≤ undo.dropLast.length + 1 := by
    rw [List.length_dropLast]
    omega
  unfold disconnectMature at hm
  split at hm
  · rw [Except.bind_eq_ok] at hm
    obtain ⟨cTxUndo, -, hm⟩ := hm
    rw [Except.bind_eq_ok] at hm
    obtain ⟨q, hq, hm⟩ := hm
    have hsub := matureIndex_subset hq
    cases q with
    | nil =>
      obtain ⟨rfl, rfl⟩ := Prod.mk.inj (Except.ok.inj hm)
      exact ⟨h, hdrop⟩
    | cons q rest =>
      dsimp only at hm
      rw [Except.bind_eq_ok] at hm
      obtain ⟨c, hc, hm⟩ := hm
      have hread := (Exec.ofOption_eq_ok (Exec.fails_doS _ _ _ _)).mp hc
      rw [Except.bind_eq_ok] at hm
      obtain ⟨tx, htx, hm⟩ := hm
      rw [Except.bind_eq_ok] at hm
      obtain ⟨vs', hundo, hm⟩ := hm
      obtain ⟨rfl, rfl⟩ := Prod.mk.inj (Except.ok.inj hm)
      obtain ⟨r, rfl⟩ := hfirst q (hsub List.mem_cons_self) c hread tx htx
      exact ⟨undoReward_idsIn h hundo, hdrop⟩
  · obtain ⟨rfl, rfl⟩ := Prod.mk.inj (Except.ok.inj hm)
    exact ⟨h, Nat.le_succ _⟩

theorem disconnectViews_idsIn {undo : CBlockUndo} {ws : Views} (h : vs.view.IdsIn ids)
    (hfree : b.DisconnectsFree node vs p nHeight undo) (hfirst : CoinbasesFirst node p)
    (hown : ∀ tx, b.firstTx = .ok tx → ∃ r, tx = .reward r) (hlen : b.vptx.length ≤ undo.length)
    (hundo : b.disconnectViews node vs p nHeight undo = .ok ws) :
    ws.view.IdsIn (ids \ b.registrations nHeight) := by
  obtain ⟨vs₁, undo₁, hcoin, hfold⟩ := disconnectViews_ok hundo
  have hall := hfree vs₁ undo₁ hcoin
  unfold disconnectCoinbases at hcoin
  rw [Except.bind_eq_ok] at hcoin
  obtain ⟨⟨vs', undo'⟩, hm, hcoin⟩ := hcoin
  dsimp only at hcoin
  rw [Except.bind_eq_ok] at hcoin
  obtain ⟨tx, htx, hcoin⟩ := hcoin
  rw [Except.bind_eq_ok] at hcoin
  obtain ⟨cTxUndo, -, hcoin⟩ := hcoin
  rw [Except.bind_eq_ok] at hcoin
  obtain ⟨vs₂, hreward, hcoin⟩ := hcoin
  obtain ⟨rfl, rfl⟩ := Prod.mk.inj (Except.ok.inj hcoin)
  obtain ⟨hmids, hlen'⟩ := disconnectMature_idsIn h hfirst hm
  obtain ⟨r, rfl⟩ := hown tx htx
  have hstart := undoReward_idsIn hmids hreward
  -- there is a record for every transaction after the coinbase
  have hzip : (b.otherTxs.zip undo').map Prod.fst = b.otherTxs := by
    apply List.map_fst_zip
    unfold otherTxs
    rw [List.length_zipIdx, List.length_drop]
    omega
  have hend := Except.foldlM_prefix_invariant
    (fun pre vs => vs.view.IdsIn (ids \ {r | ∃ item ∈ pre, r ∈ item.1.1.registers item.1.2 nHeight}))
    (disconnectTx node nHeight) ?_ ?_ hfold
  · apply hend.mono
    rintro r ⟨hr, hnot⟩
    refine ⟨hr, ?_⟩
    rintro ⟨item, hitem, hreg⟩
    rw [← hzip] at hitem
    obtain ⟨pair, hpair, rfl⟩ := List.mem_map.mp hitem
    exact hnot ⟨pair, List.mem_reverse.mpr hpair, hreg⟩
  · intro pre item post vs vs' hl hpre hvs hstep
    have hnext := CBaseTransaction.undoExecuteTx_idsIn hvs (hall pre item post vs hl hpre) hstep
    apply hnext.mono
    rintro r ⟨⟨hr, hnot⟩, hnew⟩
    refine ⟨hr, ?_⟩
    rintro ⟨item', hitem', hreg⟩
    rcases List.mem_append.mp hitem' with hold | hlast
    · exact hnot ⟨item', hold, hreg⟩
    · obtain rfl := List.mem_singleton.mp hlast
      exact hnew hreg
  · apply hstart.mono
    intro r hr
    refine ⟨hr, ?_⟩
    rintro ⟨item, hitem, -⟩
    cases hitem

theorem readUndo_length {pIndex : CBlockIndex} {pPrev : PBlockIndex} {files : UndoFiles}
    {undo : CBlockUndo} (h : readUndo node b pIndex pPrev files = .ok undo) :
    b.vptx.length ≤ undo.length := by
  unfold readUndo at h
  dsimp only at h
  rw [Except.bind_eq_ok] at h
  obtain ⟨_, -, h⟩ := h
  cases pPrev with
  | nil => cases h
  | cons prev rest =>
    dsimp only at h
    rw [Except.bind_eq_ok] at h
    obtain ⟨file, -, h⟩ := h
    rw [Except.bind_eq_ok] at h
    obtain ⟨undo', -, h⟩ := h
    rw [Except.bind_eq_ok] at h
    obtain ⟨_, hlen, h⟩ := h
    obtain rfl := Except.ok.inj h
    have hlen' := (Exec.require_eq_ok Exec.fails_returnFalse).mp hlen
    omega

theorem disconnectBlock_views {pIndex : CBlockIndex} {pPrev : PBlockIndex} {files : UndoFiles}
    {vs' : Views} {c : CTransactionDBCache}
    (h : b.disconnectBlock node vs (pIndex :: pPrev) cache files = .ok (vs', c)) :
    ∃ undo ws, readUndo node b pIndex pPrev files = .ok undo ∧
      b.disconnectViews node vs (pIndex :: pPrev) pIndex.nHeight undo = .ok ws ∧
      vs'.view = ws.view.setBestBlock (PBlockIndex.hash pPrev) := by
  unfold disconnectBlock at h
  dsimp only at h
  rw [Except.bind_eq_ok] at h
  obtain ⟨_, -, h⟩ := h
  rw [Except.bind_eq_ok] at h
  obtain ⟨undo, hundo, h⟩ := h
  rw [Except.bind_eq_ok] at h
  obtain ⟨ws, hws, h⟩ := h
  rw [Except.bind_eq_ok] at h
  obtain ⟨c', -, h⟩ := h
  obtain ⟨rfl, -⟩ := Prod.mk.inj (Except.ok.inj h)
  exact ⟨undo, ws, hundo, hws, rfl⟩

/-! ## Genesis -/

/-- The key id of a coinbase that names a public key. -/
def coinbaseKey (cr : Crypto) (tx : CBaseTransaction) : Option CKeyID :=
  match tx with
  | .reward ⟨_, .pubKey pk, _, _⟩ => some (pk.getKeyID cr)
  | _ => none

/-- A genesis block registers each key once, and no more than there are positions. -/
structure GenesisDistinct (cr : Crypto) (b : CBlock) : Prop where
  positions : b.vptx.length ≤ 2 ^ 16
  keys : (b.vptx.map (coinbaseKey cr)).Nodup

/-- The ids genesis registers. -/
def genesisRegistrations (b : CBlock) : Set CRegID :=
  {r | ∃ i < b.vptx.length, r = .ofPosition 0 i}

theorem connectGenesisTx_ok {v v' : CAccountViewCache} {item : CBaseTransaction × ℕ}
    (h : connectGenesisTx node nHeight v item = .ok v') :
    ∃ k a, coinbaseKey node.cr item.1 = some k ∧ a.cKeyID = k ∧
      a.cRegID = .ofPosition nHeight item.2 ∧ v' = v.saveAccountInfo (.ofPosition nHeight item.2) k a := by
  obtain ⟨tx, i⟩ := item
  unfold connectGenesisTx at h
  cases tx with
  | reward tx =>
    obtain ⟨nVersion, cAccount, ullRewardValue, nCreateHeight⟩ := tx
    cases cAccount with
    | pubKey pk =>
      dsimp only at h
      obtain rfl := Except.ok.inj h
      exact ⟨pk.getKeyID node.cr, _, rfl, rfl, rfl, rfl⟩
    | null => cases h
    | regID r => cases h
    | keyID k => cases h
  | registerAccount tx => cases h
  | transaction tx => cases h
  | registerApp tx => cases h

/-- Earlier coinbases have other positions and other keys. -/
theorem GenesisDistinct.other {cr : Crypto} (hd : b.GenesisDistinct cr)
    {pre post : List (CBaseTransaction × ℕ)} {item : CBaseTransaction × ℕ}
    (hl : b.vptx.zipIdx = pre ++ item :: post) :
    ∀ item' ∈ pre, item'.2 ≠ item.2 ∧ item'.2 < 2 ^ 16 ∧ item.2 < 2 ^ 16 ∧
      coinbaseKey cr item'.1 ≠ coinbaseKey cr item.1 := by
  intro item' hitem'
  have hmem' : item' ∈ b.vptx.zipIdx := by
    rw [hl]
    exact List.mem_append_left _ hitem'
  have hmem : item ∈ b.vptx.zipIdx := by
    rw [hl]
    exact List.mem_append_right _ List.mem_cons_self
  have hlt' := List.snd_lt_of_mem_zipIdx hmem'
  have hlt := List.snd_lt_of_mem_zipIdx hmem
  have hpos := hd.positions
  have hfst := congrArg (List.map (coinbaseKey cr)) (List.zipIdx_map_fst 0 b.vptx)
  have hkeys := hd.keys
  rw [← hfst, hl, List.map_append, List.map_append, List.map_cons, List.map_cons,
    List.nodup_middle, List.nodup_cons] at hkeys
  have hnums : (b.vptx.zipIdx.map Prod.snd).Nodup := by
    rw [List.zipIdx_map_snd]
    exact List.nodup_range'
  rw [hl, List.map_append, List.map_cons, List.nodup_middle, List.nodup_cons] at hnums
  refine ⟨?_, by omega, by omega, ?_⟩
  · intro heq
    apply hnums.1
    rw [← heq]
    exact List.mem_append_left _ (List.mem_map_of_mem hitem')
  · intro heq
    apply hkeys.1
    rw [← heq]
    exact List.mem_append_left _ (List.mem_map_of_mem (List.mem_map_of_mem hitem'))

/-- The ids and keys of the coinbases so far. -/
structure GenesisIds (node : Node) (pre : List (CBaseTransaction × ℕ)) (v : CAccountViewCache) :
    Prop where
  ids : v.IdsIn {r | ∃ item ∈ pre, r = .ofPosition 0 item.2}
  keys : ∀ r k, v.keyIds.lookup r = some k →
    ∃ item ∈ pre, r = .ofPosition 0 item.2 ∧ coinbaseKey node.cr item.1 = some k

theorem genesis_idsIn {v v' : CAccountViewCache} (hd : b.GenesisDistinct node.cr)
    (hv : GenesisIds node [] v) (h : b.vptx.zipIdx.foldlM (connectGenesisTx node 0) v = .ok v') :
    v'.IdsIn b.genesisRegistrations := by
  have hend := Except.foldlM_prefix_invariant (GenesisIds node) (connectGenesisTx node 0) ?_ hv h
  · apply hend.ids.mono
    rintro r ⟨⟨tx, i⟩, hitem, rfl⟩
    have hget := List.mk_mem_zipIdx_iff_getElem?.mp hitem
    exact ⟨i, (List.getElem?_eq_some_iff.mp hget).1, rfl⟩
  · intro pre item post v v' hl hpre hv hstep
    obtain ⟨k, a, hk, hak, har, rfl⟩ := connectGenesisTx_ok hstep
    have hfree : Index.Free v.keyIds (.ofPosition 0 item.2) k := by
      constructor
      · intro j hj
        obtain ⟨item', hitem', hr, -⟩ := hv.keys _ j hj
        obtain ⟨hne, hlt', hlt, -⟩ := hd.other hl item' hitem'
        exact absurd (CRegID.ofPosition_inj hlt' hlt hr.symm) hne
      · intro m hm
        obtain ⟨item', hitem', -, hkey⟩ := hv.keys m k hm
        exact absurd (hkey.trans hk.symm) (hd.other hl item' hitem').2.2.2
    constructor
    · apply (hv.ids.saveAccountInfo hfree hak har).mono
      rintro r (rfl | ⟨item', hitem', hr⟩)
      · exact ⟨item, List.mem_append_right _ (List.mem_singleton_self _), rfl⟩
      · exact ⟨item', List.mem_append_left _ hitem', hr⟩
    · intro r j hj
      have hmap : (v.saveAccountInfo (.ofPosition 0 item.2) k a).keyIds
          = v.keyIds.put (.ofPosition 0 item.2) (CAccountViewCache.liveKey k) := rfl
      rw [hmap, Store.lookup_put] at hj
      split at hj
      · next hr =>
        have hjk : j = k := by
          unfold CAccountViewCache.liveKey at hj
          split at hj
          · cases hj
          · exact (Option.some.inj hj).symm
        rw [hjk]
        exact ⟨item, List.mem_append_right _ (List.mem_singleton_self _), hr, hk⟩
      · obtain ⟨item', hitem', hr, hkey⟩ := hv.keys r j hj
        exact ⟨item', List.mem_append_left _ hitem', hr, hkey⟩

end CBlock

namespace ActiveChain

/-! ## Runs -/

/-- The ids that genesis and the blocks of a chain register. -/
def registrations (s : ActiveChain) : Set CRegID :=
  s.genesis.2.genesisRegistrations ∪ {r | ∃ e ∈ s.blocks, r ∈ e.2.registrations e.1.nHeight}

/-- A registration finds its id free, an undo may take it away. -/
def IdsFree (s : ActiveChain) (call : ChainCall) : Prop :=
  match call with
  | .connect node pIndex b => b.ConnectsFree node pIndex.nHeight s.cTxCache s.views
  | .disconnect node => ∀ e rest undo, s.blocks = e :: rest →
      CBlock.readUndo node e.2 e.1 ((rest ++ [s.genesis]).map Prod.fst) s.files = .ok undo →
      e.2.DisconnectsFree node s.views s.path e.1.nHeight undo
  | .failed .. => True

/-- Ids and accounts agree, and an account carries no id that no block of the chain registers. -/
structure IdsConsistent (s : ActiveChain) : Prop where
  agree : ∀ r k, r ≠ CRegID.null → (s.views.view.keyIds.lookup r = some k ↔
    ∃ a, s.views.view.accounts.lookup k = some a ∧ a.cRegID = r)
  /-- also `0-0`, which genesis's first account has -/
  leads : ∀ r k, s.views.view.keyIds.lookup r = some k →
    ∃ a, s.views.view.accounts.lookup k = some a ∧ a.cRegID = r
  injective : ∀ r r' k, s.views.view.keyIds.lookup r = some k →
    s.views.view.keyIds.lookup r' = some k → r' = r
  registered : ∀ k a, s.views.view.accounts.lookup k = some a → a.cRegID ≠ CRegID.null →
    a.cRegID ∈ s.registrations

/-- What connecting and disconnecting keep. -/
structure IdInvariant (s : ActiveChain) : Prop where
  ids : s.views.view.IdsIn s.registrations
  first : ∀ e ∈ s.entries, ∀ tx, e.2.firstTx = .ok tx → ∃ r, tx = .reward r

section
variable {cfg : SysCfg} {cr : Crypto} {s : ActiveChain}

theorem IdInvariant.consistent (h : s.IdInvariant) : s.IdsConsistent where
  agree r k hr := by
    constructor
    · exact h.ids.linked.leads r k
    · rintro ⟨a, ha, rfl⟩
      exact h.ids.linked.owned k a ha hr
  leads := h.ids.linked.leads
  injective _ _ _ hr hr' := Index.Linked.injective h.ids.linked hr hr'
  registered _ _ ha hne := h.ids.carried ha hne

/-- The blocks of a path start with coinbases, as the blocks of the chain do. -/
theorem coinbasesFirst {node : Node} {es : List (CBlockIndex × CBlock)}
    (hdisk : ∀ e ∈ es, ∀ c, node.readBlockFromDisk e.1 = some c → c = e.2)
    (hfirst : ∀ e ∈ es, ∀ tx, e.2.firstTx = .ok tx → ∃ r, tx = .reward r) :
    CBlock.CoinbasesFirst node (es.map Prod.fst) := by
  intro q hq c hc tx htx
  obtain ⟨e, he, rfl⟩ := List.mem_map.mp hq
  obtain rfl := hdisk e he c hc
  exact hfirst e he tx htx

theorem firstTx_of_coinbase {b : CBlock} {r : CRewardTransaction} {rest : List CBaseTransaction}
    (hb : b.vptx = .reward r :: rest) : ∀ tx, b.firstTx = .ok tx → ∃ r, tx = .reward r := by
  intro tx htx
  unfold CBlock.firstTx at htx
  rw [hb] at htx
  exact ⟨r, (Except.ok.inj htx).symm⟩

theorem IdInvariant.genesis {node : Node} {pIndex : CBlockIndex} {b : CBlock}
    {out : CBlock.Connected} (hd : b.GenesisDistinct node.cr)
    (hash : b.getHash node.cr.Hash = node.cfg.cHashGenesisBlock) (height : pIndex.nHeight = 0)
    (ok : b.connectBlock node .empty [pIndex] .empty ∅ false = .ok out) :
    IdInvariant ⟨[], (out.pBlockIndex, b), out.views, out.cTxCache, out.files⟩ := by
  unfold CBlock.connectBlock at ok
  rw [Except.bind_eq_ok] at ok
  obtain ⟨_, -, ok⟩ := ok
  dsimp only at ok
  rw [Except.bind_eq_ok] at ok
  obtain ⟨_, -, ok⟩ := ok
  rw [if_pos hash, Except.bind_eq_ok] at ok
  obtain ⟨v, hv, ok⟩ := ok
  obtain rfl := Except.ok.inj ok
  rw [height] at hv
  have hempty : CBlock.GenesisIds node [] (Views.empty.view.setBestBlock pIndex.hashBlock) := by
    constructor
    · constructor
      · intro k a ha
        cases ha
      · constructor
        · intro r k hr
          cases hr
        · intro k a ha
          cases ha
      · intro r k hr
        cases hr
    · intro r k hr
      cases hr
  constructor
  · apply (CBlock.genesis_idsIn hd hempty hv).mono
    exact Set.subset_union_left
  · intro e he tx htx
    obtain rfl := List.mem_singleton.mp he
    have hhead : b.vptx.head? = some tx := (Exec.ofOption_eq_ok (Exec.fails_throw _)).mp htx
    have hitem : (tx, 0) ∈ b.vptx.zipIdx := by
      rw [List.mk_mem_zipIdx_iff_getElem?, ← List.head?_eq_getElem?]
      exact hhead
    exact (CBlock.isCoinBase_iff tx).mp (genesis_coinbases hv _ hitem)

theorem IdInvariant.connect {node : Node} {pIndex : CBlockIndex} {b : CBlock}
    {out : CBlock.Connected} (h : s.IdInvariant) (hs : s.Sound cfg cr)
    (serves : node.Serves cfg cr ((pIndex, b) :: s.entries))
    (read : node.readBlockFromDisk pIndex = some b)
    (hfree : b.ConnectsFree node pIndex.nHeight s.cTxCache s.views)
    (ok : b.connectBlock node s.views (pIndex :: s.path) s.cTxCache s.files false = .ok out) :
    IdInvariant
      ⟨(out.pBlockIndex, b) :: s.blocks, s.genesis, out.views, out.cTxCache, out.files⟩ := by
  have hgen := hs.not_genesis serves read
  obtain ⟨_, _, vs', undo, hp, hcheck, -, hviews, hrec⟩ := CBlock.connectBlock_ok ok hgen
  obtain ⟨rfl, rfl⟩ := List.cons.inj hp
  obtain ⟨-, hheight, -⟩ := CBlock.connectRecords_ok hrec
  obtain ⟨r, rest, hb⟩ := hcheck.coinbase
  have hown := firstTx_of_coinbase hb
  have hfirst : ∀ e ∈ (pIndex, b) :: s.entries, ∀ tx, e.2.firstTx = .ok tx → ∃ r, tx = .reward r := by
    intro e he
    rcases List.mem_cons.mp he with rfl | he
    · exact hown
    · exact h.first e he
  constructor
  · have hids := CBlock.connectViews_idsIn h.ids hfree (coinbasesFirst serves.disk hfirst) hviews
    show out.views.view.IdsIn _
    rw [CBlock.connectRecords_view hrec]
    apply (hids.setBestBlock _).mono
    rintro r (hr | hr | ⟨e, he, hr⟩)
    · refine .inr ⟨(out.pBlockIndex, b), List.mem_cons_self, ?_⟩
      show r ∈ b.registrations out.pBlockIndex.nHeight
      rw [hheight]
      exact hr
    · exact .inl hr
    · exact .inr ⟨e, List.mem_cons_of_mem _ he, hr⟩
  · intro e he
    rcases List.mem_cons.mp he with rfl | he
    · exact hown
    · exact h.first e he

theorem IdInvariant.disconnect {node : Node} {e : CBlockIndex × CBlock}
    {rest : List (CBlockIndex × CBlock)} {vs : Views} {cache : CTransactionDBCache}
    (h : s.IdInvariant) (hblocks : s.blocks = e :: rest) (serves : node.Serves cfg cr s.entries)
    (hfree : s.IdsFree (.disconnect node))
    (ok : e.2.disconnectBlock node s.views s.path s.cTxCache s.files = .ok (vs, cache)) :
    IdInvariant ⟨rest, s.genesis, vs, cache, s.files⟩ := by
  have hentries : s.entries = e :: (rest ++ [s.genesis]) := by
    rw [entries, hblocks, List.cons_append]
  have hpath : s.path = e.1 :: (rest ++ [s.genesis]).map Prod.fst := by
    rw [path, hentries, List.map_cons]
  have hown := h.first e (by rw [hentries]; exact List.mem_cons_self)
  rw [hpath] at ok
  obtain ⟨undo, ws, hread, hundo, hview⟩ := CBlock.disconnectBlock_views ok
  have hall := hfree e rest undo hblocks hread
  rw [← hpath] at hundo
  have hids := CBlock.disconnectViews_idsIn h.ids hall (coinbasesFirst serves.disk h.first) hown
    (CBlock.readUndo_length hread) hundo
  constructor
  · show vs.view.IdsIn _
    rw [hview]
    apply (hids.setBestBlock _).mono
    rintro r ⟨hr | ⟨e', he', hr⟩, hnot⟩
    · exact .inl hr
    · rw [hblocks] at he'
      rcases List.mem_cons.mp he' with rfl | he'
      · exact absurd hr hnot
      · exact .inr ⟨e', he', hr⟩
  · intro e' he'
    apply h.first e'
    rw [hentries]
    exact List.mem_cons_of_mem _ he'

theorem ReachableIf.idInvariant (h : ReachableIf cfg cr IdsFree s)
    (hd : s.genesis.2.GenesisDistinct cr) : s.IdInvariant := by
  induction h with
  | genesis serves read hash height ok =>
    obtain ⟨rfl, rfl, -⟩ := serves
    exact .genesis hd hash height ok
  | step hreach hmeets hstep ih =>
    cases hstep with
    | connect serves read height ok => exact (ih hd).connect hreach.sound serves read hmeets ok
    | disconnect blocks serves ok => exact (ih hd).disconnect blocks serves hmeets ok
    | failed ends goesOn =>
      have hold := ih hd
      exact ⟨hold.ids, hold.first⟩

/-- In every run whose registrations find their ids free and whose undos may take them away, the ids
and the accounts agree. -/
theorem ids_consistent (h : ReachableIf cfg cr IdsFree s) (hd : s.genesis.2.GenesisDistinct cr) :
    s.IdsConsistent :=
  (h.idInvariant hd).consistent

end

/-! ## A key that registers -/

open Sample in
theorem genesisBlock_distinct : genesisBlock.GenesisDistinct crypto :=
  ⟨by decide +kernel, by decide +kernel⟩

open Sample in
theorem fundBlock_serves : (chainNode [withEntry fundBlock, withEntry genesisBlock]).Serves
    chainCfg crypto [withEntry fundBlock, withEntry genesisBlock] :=
  chainNode_serves (by decide +kernel) (by decide +kernel)
    (by unfold CBaseTransaction.Reread varInt32; decide +kernel)

open Sample in
/-- Entries that have been connected since differ only in what the block index says of them. -/
theorem registerLater_serves {p q : CBlockIndex}
    (hp : p.hashBlock = (entryOf registerLaterBlock).hashBlock)
    (hq : q.hashBlock = (entryOf fundBlock).hashBlock) :
    (chainNode [(p, registerLaterBlock), (q, fundBlock), withEntry genesisBlock]).Serves chainCfg
      crypto [(p, registerLaterBlock), (q, fundBlock), withEntry genesisBlock] := by
  apply chainNode_serves
  · intro e he
    simp only [List.mem_cons, List.not_mem_nil, or_false] at he
    rcases he with rfl | rfl | rfl
    · rw [hp]
      dsimp only
      decide +kernel
    · rw [hq]
      dsimp only
      decide +kernel
    · decide +kernel
  · rw [List.map_cons, List.map_cons, hp, hq]
    decide +kernel
  · have hreread : ∀ b ∈ [registerLaterBlock, fundBlock, genesisBlock], ∀ tx ∈ b.vptx, tx.Reread := by
      unfold CBaseTransaction.Reread varInt32
      decide +kernel
    intro e he
    apply hreread
    simp only [List.mem_cons, List.not_mem_nil, or_false] at he ⊢
    rcases he with rfl | rfl | rfl
    · exact .inl rfl
    · exact .inr (.inl rfl)
    · exact .inr (.inr rfl)

open Sample in
/-- A key is funded and, in the next block, registers; when that block is disconnected the account
stays with the id, which leads nowhere. -/
theorem undone_id_stays : ∃ s, Reachable chainCfg crypto s ∧ s.genesis.2.GenesisDistinct crypto ∧
    ¬ s.IdsConsistent := by
  obtain ⟨⟨vs, c⟩, hundo⟩ := Except.exists_of_toOption
    (show (undoRun fundBlock registerLaterBlock).toOption.isSome = true by decide +kernel)
  have hstays : (undoRun fundBlock registerLaterBlock).toOption.any (fun r =>
      r.1.view.keyIds.lookup ⟨2, 1⟩ == none &&
        (r.1.view.accounts.lookup (keyId 7)).any fun a => a.cRegID == ⟨2, 1⟩) = true := by
    decide +kernel
  rw [hundo] at hstays
  simp only [Except.toOption, Option.any_some, Bool.and_eq_true, beq_iff_eq] at hstays
  obtain ⟨hgone, hkept⟩ := hstays
  rw [Option.any_eq_true] at hkept
  obtain ⟨a, ha, hid⟩ := hkept
  unfold undoRun at hundo
  rw [Except.bind_eq_ok] at hundo
  obtain ⟨out, hout, hundo⟩ := hundo
  rw [Except.bind_eq_ok] at hundo
  obtain ⟨top, htop, hundo⟩ := hundo
  obtain ⟨g, hg, hstep⟩ := firstRun_step fundBlock_serves (by decide +kernel) (by decide +kernel) hout
  have hfund : Reachable chainCfg crypto
      ⟨[(out.pBlockIndex, fundBlock)], withEntry genesisBlock, out.views, out.cTxCache, out.files⟩ :=
    .step (genesisRun_reachable hg) trivial hstep
  have hentry := (ReachableIf.sound hfund).hash _ List.mem_cons_self
  have hread : (chainNode [withEntry registerLaterBlock, (out.pBlockIndex, fundBlock),
      withEntry genesisBlock]).readBlockFromDisk (entryOf registerLaterBlock)
        = some registerLaterBlock := by
    have hsame : [withEntry registerLaterBlock, (out.pBlockIndex, fundBlock),
        withEntry genesisBlock].map Prod.snd
          = [withEntry registerLaterBlock, withEntry fundBlock,
            withEntry genesisBlock].map Prod.snd := by
      simp only [List.map_cons, List.map_nil, withEntry]
    rw [chainNode_read hsame]
    decide +kernel
  have hheight : (entryOf registerLaterBlock).nHeight = (1 : ℕ) + 1 := by decide +kernel
  have hregister : Reachable chainCfg crypto
      ⟨[(top.pBlockIndex, registerLaterBlock), (out.pBlockIndex, fundBlock)], withEntry genesisBlock,
        top.views, top.cTxCache, top.files⟩ :=
    .step hfund trivial (.connect (registerLater_serves rfl hentry.symm) hread hheight htop)
  have hentry' := (ReachableIf.sound hregister).hash _ List.mem_cons_self
  have hback : Reachable chainCfg crypto
      ⟨[(out.pBlockIndex, fundBlock)], withEntry genesisBlock, vs, c, top.files⟩ :=
    .step hregister trivial
      (.disconnect rfl (registerLater_serves hentry'.symm hentry.symm) hundo)
  refine ⟨_, hback, genesisBlock_distinct, ?_⟩
  intro hcons
  have hlead := (hcons.agree ⟨2, 1⟩ (keyId 7) (by decide)).mpr ⟨a, ha, beq_iff_eq.mp hid⟩
  rw [hgone] at hlead
  cases hlead

open Sample in
/-- Funded and registered in one block, the key finds its id free. -/
theorem ids_consistent_register : ∃ s, Reachable chainCfg crypto s ∧ s.chain = [registerBlock] ∧
    s.IdsConsistent := by
  obtain ⟨out, hout⟩ := Except.exists_of_toOption
    (show (firstRun registerBlock).toOption.isSome = true by decide +kernel)
  obtain ⟨g, hg, hstep⟩ := firstRun_step registerBlock_serves (by decide +kernel)
    (by decide +kernel) hout
  have hids : genesisRun.toOption.any (fun g => g.views.view.keyIds.lookup ⟨1, 2⟩ == none &&
      !g.views.view.keyIds.any fun _ k => k == keyId 7) = true := by
    decide +kernel
  rw [hg] at hids
  simp only [Except.toOption, Option.any_some, Bool.and_eq_true, beq_iff_eq, Bool.not_eq_true',
    ← Bool.not_eq_true, Store.any_iff] at hids
  obtain ⟨hnone, hno⟩ := hids
  have hfree : IdsFree ⟨[], withEntry genesisBlock, g.views, g.cTxCache, g.files⟩
      (.connect (chainNode [withEntry registerBlock, withEntry genesisBlock]) (entryOf registerBlock)
        registerBlock) := by
    intro pre item post st hl hpre
    have hothers : registerBlock.otherTxs = [(fundingTx, 1), (registerTx, 2)] := rfl
    rw [hothers] at hl
    cases pre with
    | nil =>
      obtain ⟨rfl, -⟩ := List.cons.inj hl
      trivial
    | cons first pre =>
      obtain ⟨hfirst, hl⟩ := List.cons.inj hl
      cases pre with
      | nil =>
        obtain ⟨rfl, -⟩ := List.cons.inj hl
        -- the transfer before leaves the ids as genesis left them
        rw [← hfirst, List.foldlM_cons, Except.bind_eq_ok] at hpre
        obtain ⟨st', hst', hlast⟩ := hpre
        obtain rfl := Except.ok.inj hlast
        obtain ⟨e, llFuel, he, -, -, rfl⟩ := CBlock.connectTx_ok hst'
        have hkeyed := ((@genesisRun_reachable IdsFree g hg).idInvariant
          genesisBlock_distinct).ids.keyed
        have hkept := CTransaction.executeTx_idsKept hkeyed he
        intro pk hpk
        obtain rfl := CUserID.pubKey.inj hpk
        unfold Index.Free
        rw [hkept.keyIds]
        constructor
        · intro j hj
          have hnew : CRegID.ofPosition (entryOf registerBlock).nHeight 2 = ⟨1, 2⟩ := by
            decide +kernel
          rw [show ((registerTx, 2) : CBaseTransaction × ℕ).2 = 2 from rfl, Nat.cast_ofNat, hnew,
            hnone] at hj
          cases hj
        · intro m hm
          exact absurd ⟨m, _, hm, rfl⟩ hno
      | cons second pre =>
        have hlen := congrArg List.length hl
        simp at hlen
  exact ⟨_, .step (genesisRun_reachable hg) trivial hstep, rfl,
    ids_consistent (.step (genesisRun_reachable hg) hfree hstep) genesisBlock_distinct⟩

end ActiveChain

end Dacrs
