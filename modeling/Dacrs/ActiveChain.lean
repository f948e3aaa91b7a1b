import Dacrs.TipAtomic

/-!
# The active chain

Runs of `ConnectBlock` and `DisconnectBlock` on the active tip: a state is the chain from genesis to
the tip, the two views, the transaction cache and the undo files; a step is one call, with whatever
the node knows at that time.  A call that fails leaves the views alone.
-/

open Codec (Bytes)

namespace Dacrs

/-- An `int` that has been written as a `VARINT` and read back. -/
def CBaseTransaction.Reread (tx : CBaseTransaction) : Prop :=
  varInt32.Fits tx.nVersion ∧ varInt32.Fits tx.nValidHeight

theorem CAccountViewCache.live_empty (k : CKeyID) (a : CAccount)
    (h : (∅ : Store CKeyID CAccount).lookup k = some a) : a.cKeyID ≠ 0 :=
  Store.of_lookup_empty h

theorem CAccountViewCache.mapped_empty (r : CRegID) (k : CKeyID)
    (h : (∅ : Store CRegID CKeyID).lookup r = some k) : k ≠ 0 :=
  Store.of_lookup_empty h

theorem CScriptDBViewCache.nonempty_empty (k v : Bytes)
    (h : (∅ : Store Bytes Bytes).lookup k = some v) : v ≠ [] :=
  Store.of_lookup_empty h

/-- The views before genesis. -/
def Views.empty : Views where
  view := ⟨∅, ∅, 0, CAccountViewCache.live_empty, CAccountViewCache.mapped_empty⟩
  scriptDB := ⟨∅, CScriptDBViewCache.nonempty_empty⟩

/-- The active chain, tip first, each block with its index entry, and what the node keeps of it. -/
structure ActiveChain where
  blocks : List (CBlockIndex × CBlock)
  genesis : CBlockIndex × CBlock
  views : Views
  cTxCache : CTransactionDBCache
  files : UndoFiles

namespace ActiveChain

/-- All of it, genesis last. -/
def entries (s : ActiveChain) : List (CBlockIndex × CBlock) := s.blocks ++ [s.genesis]

/-- The tip's entry with its ancestors. -/
def path (s : ActiveChain) : PBlockIndex := s.entries.map Prod.fst

/-- The blocks after genesis. -/
def chain (s : ActiveChain) : List CBlock := s.blocks.map Prod.snd

end ActiveChain

/-- What the node's block index and block files say about the blocks of a chain. -/
structure Node.Serves (cfg : SysCfg) (cr : Crypto) (blocks : List (CBlockIndex × CBlock))
    (node : Node) : Prop where
  cfg : node.cfg = cfg
  cr : node.cr = cr
  /-- every entry is found under its block's hash, which is not `uint256()` -/
  index : ∀ e rest, e :: rest <:+ blocks → e.1.hashBlock ≠ 0 ∧
    node.mapBlockIndex e.1.hashBlock = some ((e :: rest).map Prod.fst)
  /-- a block is read back as it was connected -/
  disk : ∀ e ∈ blocks, ∀ c, node.readBlockFromDisk e.1 = some c → c = e.2
  /-- what is read has been written before -/
  reread : ∀ q c, node.readBlockFromDisk q = some c → ∀ tx ∈ c.vptx, tx.Reread

namespace ActiveChain

/-- A call on the tip, by a node that knows what it knows then. -/
inductive ChainCall where
  | connect (node : Node) (pIndex : CBlockIndex) (b : CBlock)
  | disconnect (node : Node)
  /-- either function, with any block, when it returns false -/
  | failed (node : Node) (call : TipCall) (b : CBlock) (p : PBlockIndex)

/-- What a call does to the chain. -/
inductive Step (cfg : SysCfg) (cr : Crypto) (s : ActiveChain) : ChainCall → ActiveChain → Prop
  /-- `ConnectBlock` accepts a block, read from its file, whose entry follows the tip's. -/
  | connect {node : Node} {pIndex : CBlockIndex} {b : CBlock} {out : CBlock.Connected}
      (serves : node.Serves cfg cr ((pIndex, b) :: s.entries))
      (read : node.readBlockFromDisk pIndex = some b)
      (height : pIndex.nHeight = s.blocks.length + 1)
      (ok : b.connectBlock node s.views (pIndex :: s.path) s.cTxCache s.files false = .ok out) :
      Step cfg cr s (.connect node pIndex b)
        ⟨(out.pBlockIndex, b) :: s.blocks, s.genesis, out.views, out.cTxCache, out.files⟩
  /-- `DisconnectBlock` takes the tip back. -/
  | disconnect {node : Node} {e : CBlockIndex × CBlock} {rest : List (CBlockIndex × CBlock)}
      {vs : Views} {cache : CTransactionDBCache}
      (blocks : s.blocks = e :: rest) (serves : node.Serves cfg cr s.entries)
      (ok : e.2.disconnectBlock node s.views s.path s.cTxCache s.files = .ok (vs, cache)) :
      Step cfg cr s (.disconnect node) ⟨rest, s.genesis, vs, cache, s.files⟩
  /-- A call returns false and does not abort; the caller drops its views. -/
  | failed {node : Node} {call : TipCall} {b : CBlock} {p : PBlockIndex} {calls : List StateCall}
      {cache : CTransactionDBCache}
      (ends : call.run node b s.views p s.cTxCache s.files = (.error (.fail calls), cache))
      (goesOn : ∀ reason, .error reason ∉ calls) :
      Step cfg cr s (.failed node call b p) { s with cTxCache := cache }

/-- The chains reached from genesis, which is connected to nothing, by calls that meet a condition. -/
inductive ReachableIf (cfg : SysCfg) (cr : Crypto) (Meets : ActiveChain → ChainCall → Prop) :
    ActiveChain → Prop
  | genesis {node : Node} {pIndex : CBlockIndex} {b : CBlock} {out : CBlock.Connected}
      (serves : node.Serves cfg cr [(pIndex, b)])
      (read : node.readBlockFromDisk pIndex = some b)
      (hash : b.getHash cr.Hash = cfg.cHashGenesisBlock) (height : pIndex.nHeight = 0)
      (ok : b.connectBlock node .empty [pIndex] .empty ∅ false = .ok out) :
      ReachableIf cfg cr Meets ⟨[], (out.pBlockIndex, b), out.views, out.cTxCache, out.files⟩
  | step {s t : ActiveChain} {call : ChainCall} (reachable : ReachableIf cfg cr Meets s)
      (meets : Meets s call) (step : Step cfg cr s call t) : ReachableIf cfg cr Meets t

/-- All chains reached from genesis. -/
def Reachable (cfg : SysCfg) (cr : Crypto) : ActiveChain → Prop :=
  ReachableIf cfg cr fun _ _ => True

end ActiveChain

/-- Different blocks of a chain have different hashes. -/
theorem Node.Serves.nodup {cfg : SysCfg} {cr : Crypto} {node : Node}
    {blocks : List (CBlockIndex × CBlock)} (h : node.Serves cfg cr blocks) :
    (blocks.map fun e => e.1.hashBlock).Nodup := by
  have hsuffix : ∀ l, l <:+ blocks → (l.map fun e => e.1.hashBlock).Nodup := by
    intro l
    induction l with
    | nil =>
      intro _
      exact List.nodup_nil
    | cons e l ih =>
      intro hl
      rw [List.map_cons, List.nodup_cons]
      refine ⟨?_, ih ((List.suffix_cons e l).trans hl)⟩
      intro hmem
      obtain ⟨e', he', hhash⟩ := List.mem_map.mp hmem
      obtain ⟨front, rest, rfl⟩ := List.append_of_mem he'
      have hrest : e' :: rest <:+ blocks :=
        (((List.suffix_append front (e' :: rest)).trans (List.suffix_cons e _))).trans hl
      have heq := (h.index e _ hl).2
      rw [← hhash, (h.index e' rest hrest).2, Option.some.injEq] at heq
      have hlen := congrArg List.length heq
      simp only [List.length_map, List.length_cons, List.length_append] at hlen
      omega
  exact hsuffix blocks List.suffix_rfl

theorem Node.getHash_of_read {node : Node} {q : CBlockIndex} {d : CBlock}
    (h : node.readBlockFromDisk q = some d) : d.getHash node.cr.Hash = q.hashBlock := by
  unfold Node.readBlockFromDisk at h
  have hfilter := (Option.filter_eq_some_iff.mp h).2
  exact of_decide_eq_true hfilter

/-- The entry at a height above genesis, counted from the tip. -/
theorem chainAt_of_pos {es : List (CBlockIndex × CBlock)} {g : CBlockIndex × CBlock} {n : ℤ}
    {q : CBlockIndex} (hpos : n < es.length)
    (h : chainAt ((es ++ [g]).map Prod.fst) (es.length - n) = some q) :
    0 ≤ n ∧ ∃ e, es[n.toNat]? = some e ∧ e.1 = q := by
  unfold chainAt at h
  simp only [List.length_map, List.length_append, List.length_singleton] at h
  split at h
  · cases h
  · next hrange =>
    have hn : 0 ≤ n := by
      push_cast at hrange
      omega
    have hi : es.length + 1 - 1 - (es.length - n : ℤ).toNat = n.toNat := by omega
    have hlt : n.toNat < es.length := by omega
    rw [hi, List.getElem?_map, List.getElem?_append_left hlt, Option.map_eq_some_iff] at h
    obtain ⟨e, he, rfl⟩ := h
    exact ⟨hn, e, he, rfl⟩

end Dacrs
