import Dacrs.AccountOverlay
import Dacrs.ConnectSpec
import Dacrs.ScriptCache

/-!
# A call on the tip that fails

`ConnectTip` and `DisconnectTip` hand `ConnectBlock` and `DisconnectBlock` views of their own, laid
over the two tip views, and the transaction cache of the tip itself.  A failing call leaves nothing
behind in the tip views (`AccountStack.afterOps_below`, `ScriptStack.below_sameAnswers`), but its
first write to the transaction cache stays.  `tip_atomic_iff` says exactly when the tip is as before.
-/

open Codec (Bytes)

namespace Dacrs

namespace CBlock

/-! ## The two functions, with what they leave in the transaction cache -/

/-- The transaction cache at the end of `ConnectBlock`. -/
def connectCacheOn (node : Node) (b : CBlock) (p : PBlockIndex) (nHeight : ℤ)
    (cache : CTransactionDBCache) : Exec Unit × CTransactionDBCache :=
  let cache := cache.addBlockToCache node.cr.Hash b
  if 0 < nHeight - node.cfg.nTxCacheHeight then
    match cacheLimitBlock node p nHeight with
    | .error e => (.error e, cache)
    | .ok cDeleteBlock => match cache.deleteBlockFromCache node.cr.Hash cDeleteBlock with
      | none => (Exec.abort "Connect tip block failed delete block tx to txcache", cache)
      | some cache => (.ok (), cache)
  else (.ok (), cache)

/-- The transaction cache at the end of `DisconnectBlock`. -/
def disconnectCacheOn (node : Node) (b : CBlock) (pPrev : PBlockIndex) (nHeight : ℤ)
    (cache : CTransactionDBCache) : Exec Unit × CTransactionDBCache :=
  match cache.deleteBlockFromCache node.cr.Hash b with
  | none => (Exec.abort "Disconnect tip block failed to delete tx from txcache", cache)
  | some cache =>
    if 0 < nHeight - node.cfg.nTxCacheHeight then
      match cacheLimitBlock node pPrev nHeight with
      | .error e => (.error e, cache)
      | .ok cReLoadblock => (.ok (), cache.addBlockToCache node.cr.Hash cReLoadblock)
    else (.ok (), cache)

/-- `ConnectBlock` up to the transaction cache; the height is there when the cache is still to be
written. -/
def connectBefore (node : Node) (b : CBlock) (vs : Views) (p : PBlockIndex)
    (cache : CTransactionDBCache) (files : UndoFiles) : Exec (Connected × Option ℤ) := do
  b.checkBlock node vs.view vs.scriptDB true true
  match p with
  | [] => Exec.throw "pBlockIndex is NULL"
  | pIndex :: pPrev =>
    Exec.require (PBlockIndex.hash pPrev = vs.view.cHashBlock)
      (Exec.throw "assert(cHashPrevBlock == cAccountViewCache.GetBestBlock())")
    if b.getHash node.cr.Hash = node.cfg.cHashGenesisBlock then
      let v ← b.vptx.zipIdx.foldlM (connectGenesisTx node pIndex.nHeight)
        (vs.view.setBestBlock pIndex.hashBlock)
      return (⟨⟨v, vs.scriptDB⟩, cache, [], pIndex, files⟩, none)
    else
      let (vs, undo) ← b.connectViews node vs p pIndex.nHeight cache
      let (vs, undo) := b.connectIndex node pIndex vs undo
      let (pIndex', files) ← connectEntry node pIndex pPrev undo files
      return (⟨⟨vs.view.setBestBlock pIndex.hashBlock, vs.scriptDB⟩, cache, undo, pIndex', files⟩,
        some pIndex.nHeight)

/-- `ConnectBlock` on the tip's transaction cache: how it ends, and what the cache holds then. -/
def connectBlockOn (node : Node) (b : CBlock) (vs : Views) (p : PBlockIndex)
    (cache : CTransactionDBCache) (files : UndoFiles) : Exec Connected × CTransactionDBCache :=
  match b.connectBefore node vs p cache files with
  | .error e => (.error e, cache)
  | .ok (out, none) => (.ok out, cache)
  | .ok (out, some nHeight) => match b.connectCacheOn node p nHeight cache with
    | (.error e, cache) => (.error e, cache)
    | (.ok _, cache) => (.ok { out with cTxCache := cache }, cache)

/-- `DisconnectBlock` up to the transaction cache. -/
def disconnectBefore (node : Node) (b : CBlock) (vs : Views) (p : PBlockIndex)
    (files : UndoFiles) : Exec (Views × PBlockIndex × ℤ) :=
  match p with
  | [] => Exec.throw "pBlockIndex is NULL"
  | pIndex :: pPrev => do
    Exec.require (pIndex.hashBlock = vs.view.cHashBlock)
      (Exec.throw "assert(pBlockIndex->GetBlockHash() == cAccountViewCache.GetBestBlock())")
    let undo ← readUndo node b pIndex pPrev files
    let vs ← b.disconnectViews node vs p pIndex.nHeight undo
    return (⟨vs.view.setBestBlock (PBlockIndex.hash pPrev), vs.scriptDB⟩, pPrev, pIndex.nHeight)

/-- `DisconnectBlock` on the tip's transaction cache. -/
def disconnectBlockOn (node : Node) (b : CBlock) (vs : Views) (p : PBlockIndex)
    (cache : CTransactionDBCache) (files : UndoFiles) : Exec Views × CTransactionDBCache :=
  match b.disconnectBefore node vs p files with
  | .error e => (.error e, cache)
  | .ok (vs, pPrev, nHeight) => match b.disconnectCacheOn node pPrev nHeight cache with
    | (.error e, cache) => (.error e, cache)
    | (.ok _, cache) => (.ok vs, cache)

section
variable {node : Node} {b : CBlock} {vs : Views} {p pPrev : PBlockIndex} {nHeight : ℤ}
  {cache : CTransactionDBCache} {files : UndoFiles}

theorem connectCache_eq : b.connectCache node p nHeight cache
    = (b.connectCacheOn node p nHeight cache).1.map fun _ =>
        (b.connectCacheOn node p nHeight cache).2 := by
  unfold connectCache connectCacheOn
  dsimp only
  split
  · cases cacheLimitBlock node p nHeight with
    | error e => rfl
    | ok d =>
      dsimp only [Except.ok_bind]
      cases (cache.addBlockToCache node.cr.Hash b).deleteBlockFromCache node.cr.Hash d with
      | none => rfl
      | some c => rfl
  · rfl

theorem disconnectCache_eq : b.disconnectCache node pPrev nHeight cache
    = (b.disconnectCacheOn node pPrev nHeight cache).1.map fun _ =>
        (b.disconnectCacheOn node pPrev nHeight cache).2 := by
  unfold disconnectCache disconnectCacheOn
  cases cache.deleteBlockFromCache node.cr.Hash b with
  | none => rfl
  | some c =>
    show (if 0 < nHeight - node.cfg.nTxCacheHeight then _ else _) = _
    dsimp only
    split
    · cases cacheLimitBlock node pPrev nHeight with
      | error e => rfl
      | ok d => rfl
    · rfl

/-- `ConnectBlock` is its first part, followed by the transaction cache. -/
theorem connectBlock_eq : b.connectBlock node vs p cache files false
    = b.connectBefore node vs p cache files >>= fun r => match r.2 with
      | none => .ok r.1
      | some nHeight => (b.connectCache node p nHeight cache).map fun c =>
          { r.1 with cTxCache := c } := by
  unfold connectBlock connectBefore
  simp only [Bool.not_false, bind_assoc]
  refine bind_congr fun _ => ?_
  cases p with
  | nil => rfl
  | cons pIndex pPrev =>
    simp only [bind_assoc, Bool.false_eq_true, false_or, if_false]
    refine bind_congr fun _ => ?_
    split
    · rw [bind_assoc]
      rfl
    · rw [bind_assoc]
      refine bind_congr fun r => ?_
      obtain ⟨vs', undo⟩ := r
      unfold connectRecords
      dsimp only
      rw [bind_assoc]
      refine bind_congr fun r => ?_
      obtain ⟨pIndex', files'⟩ := r
      rw [pure_bind]
      dsimp only
      cases b.connectCache node (pIndex :: pPrev) pIndex.nHeight cache with
      | error e => rfl
      | ok c => rfl

/-- The first component is `ConnectBlock`. -/
theorem connectBlockOn_fst :
    (b.connectBlockOn node vs p cache files).1 = b.connectBlock node vs p cache files false := by
  rw [connectBlock_eq]
  unfold connectBlockOn
  cases b.connectBefore node vs p cache files with
  | error e => rfl
  | ok r =>
    obtain ⟨out, o⟩ := r
    cases o with
    | none => rfl
    | some nHeight =>
      rw [Except.ok_bind]
      dsimp only
      rw [connectCache_eq]
      rcases b.connectCacheOn node p nHeight cache with ⟨x, c⟩
      cases x with
      | error e => rfl
      | ok u => rfl

/-- And here, but for the cache, `DisconnectBlock`. -/
theorem disconnectBlockOn_fst : (b.disconnectBlockOn node vs p cache files).1
    = (b.disconnectBlock node vs p cache files).map Prod.fst := by
  cases p with
  | nil => rfl
  | cons pIndex pPrev =>
    have hsplit : b.disconnectBlock node vs (pIndex :: pPrev) cache files
        = b.disconnectBefore node vs (pIndex :: pPrev) files >>= fun r =>
            (b.disconnectCache node r.2.1 r.2.2 cache).map fun c => (r.1, c) := by
      unfold disconnectBlock disconnectBefore
      simp only [bind_assoc]
      refine bind_congr fun _ => bind_congr fun undo => bind_congr fun vs' => ?_
      rw [pure_bind]
      cases b.disconnectCache node pPrev pIndex.nHeight cache with
      | error e => rfl
      | ok c => rfl
    rw [hsplit]
    unfold disconnectBlockOn
    cases b.disconnectBefore node vs (pIndex :: pPrev) files with
    | error e => rfl
    | ok r =>
      rw [Except.ok_bind, disconnectCache_eq]
      obtain ⟨vs', q, h⟩ := r
      dsimp only
      rcases b.disconnectCacheOn node q h cache with ⟨x, c⟩
      cases x with
      | error e => rfl
      | ok u => rfl

end

end CBlock

/-! ## Calls -/

/-- The two functions the tip calls. -/
inductive TipCall where
  | connect
  | disconnect
deriving DecidableEq

/-- The function returned false. -/
def Exec.ReturnsFalse {α : Type} (x : Exec α) : Prop := ∃ calls, x = .error (.fail calls)

instance {α : Type} (x : Exec α) : Decidable x.ReturnsFalse :=
  match x with
  | .ok a => isFalse (by rintro ⟨calls, h⟩; cases h)
  | .error (.fail calls) => isTrue ⟨calls, rfl⟩
  | .error (.throw what) => isFalse (by rintro ⟨calls, h⟩; cases h)

namespace TipCall

section
variable (call : TipCall) (node : Node) (b : CBlock) (vs : Views) (p : PBlockIndex)
  (cache : CTransactionDBCache) (files : UndoFiles)

/-- How the call ends, and what the transaction cache holds then. -/
def run : Exec Unit × CTransactionDBCache :=
  match call with
  | connect =>
    let r := b.connectBlockOn node vs p cache files
    (r.1.map fun _ => (), r.2)
  | disconnect =>
    let r := b.disconnectBlockOn node vs p cache files
    (r.1.map fun _ => (), r.2)

/-- The call passes everything that comes before the transaction cache.  The chain it looks for the
block at the edge of the window in, and the height of its own block. -/
def Reaches (chain : PBlockIndex) (nHeight : ℤ) : Prop :=
  match call with
  | connect => p = chain ∧ ∃ out, b.connectBefore node vs p cache files = .ok (out, some nHeight)
  | disconnect => ∃ vs', b.disconnectBefore node vs p files = .ok (vs', chain, nHeight)

/-- The first write to the transaction cache: the block is added, or deleted. -/
def firstWrite : CTransactionDBCache :=
  match call with
  | connect => cache.addBlockToCache node.cr.Hash b
  | disconnect => (cache.deleteBlockFromCache node.cr.Hash b).getD cache

/-- The block at the edge of the window, if there is one, can be read; when it is to leave the cache
it is there. -/
def WindowReady (chain : PBlockIndex) (nHeight : ℤ) : Prop :=
  0 < nHeight - node.cfg.nTxCacheHeight →
    ∀ q, chainAt chain (nHeight - node.cfg.nTxCacheHeight) = some q →
      ∃ d, node.readBlockFromDisk q = some d ∧
        (call = connect →
          ((call.firstWrite node b cache).deleteBlockFromCache node.cr.Hash d).isSome)

end

section
variable {call : TipCall} {node : Node} {b : CBlock} {vs : Views} {p chain : PBlockIndex}
  {nHeight : ℤ} {cache : CTransactionDBCache} {files : UndoFiles}

theorem cacheLimitBlock_of_some {q : CBlockIndex}
    (hq : chainAt chain (nHeight - node.cfg.nTxCacheHeight) = some q) :
    CBlock.cacheLimitBlock node chain nHeight
      = Exec.ofOption (node.readBlockFromDisk q) (Exec.abort "Failed to read block") := by
  unfold CBlock.cacheLimitBlock
  rw [hq]
  rfl

/-- An entry that is not there ends the program. -/
theorem cacheLimitBlock_of_none
    (hq : chainAt chain (nHeight - node.cfg.nTxCacheHeight) = none) :
    CBlock.cacheLimitBlock node chain nHeight = Exec.throw "cTempChain[..] is NULL" := by
  unfold CBlock.cacheLimitBlock
  rw [hq]
  rfl

variable (call node b chain nHeight cache) in
/-- The transaction cache at the end of the call. -/
def cacheOn : Exec Unit × CTransactionDBCache :=
  match call with
  | connect => b.connectCacheOn node chain nHeight cache
  | disconnect => b.disconnectCacheOn node chain nHeight cache

theorem not_returnsFalse_ok {α : Type} (a : α) : ¬ (Exec.ReturnsFalse (.ok a : Exec α)) := by
  rintro ⟨calls, h⟩
  cases h

theorem not_returnsFalse_throw {α : Type} (what : String) :
    ¬ (Exec.ReturnsFalse (Exec.throw what : Exec α)) := by
  rintro ⟨calls, h⟩
  cases h

theorem returnsFalse_abort {α : Type} (reason : String) :
    Exec.ReturnsFalse (Exec.abort reason : Exec α) := ⟨_, rfl⟩

theorem returnsFalse_error {α : Type} {e : Exit} :
    Exec.ReturnsFalse (.error e : Exec α) ↔ ∃ calls, e = .fail calls :=
  exists_congr fun _ => ⟨Except.error.inj, congrArg Except.error⟩

theorem returnsFalse_map {α β : Type} {x : Exec α} {f : α → β} :
    Exec.ReturnsFalse (x.map f) ↔ Exec.ReturnsFalse x := by
  cases x with
  | error e => exact returnsFalse_error.trans returnsFalse_error.symm
  | ok a => exact iff_of_false (not_returnsFalse_ok (f a)) (not_returnsFalse_ok a)

variable (call node b chain nHeight cache) in
/-- The end of the call goes on, with the window ready, or returns false after the first write. -/
def Ends (r : Exec Unit × CTransactionDBCache) : Prop :=
  (¬ Exec.ReturnsFalse r.1 ∧ WindowReady call node b cache chain nHeight) ∨
    (Exec.ReturnsFalse r.1 ∧ r.2 = firstWrite call node b cache ∧
      (WindowReady call node b cache chain nHeight → firstWrite call node b cache = cache))

/-- Below the window's length there is nothing to look for. -/
theorem windowReady_of_low (h : ¬ 0 < nHeight - node.cfg.nTxCacheHeight) :
    WindowReady call node b cache chain nHeight := fun hpos => absurd hpos h

theorem windowReady_of_none (h : chainAt chain (nHeight - node.cfg.nTxCacheHeight) = none) :
    WindowReady call node b cache chain nHeight := by
  intro _ q hq
  rw [h] at hq
  cases hq

theorem not_windowReady_of_unread (hpos : 0 < nHeight - node.cfg.nTxCacheHeight) {q : CBlockIndex}
    (hq : chainAt chain (nHeight - node.cfg.nTxCacheHeight) = some q)
    (hread : node.readBlockFromDisk q = none) : ¬ WindowReady call node b cache chain nHeight := by
  intro h
  obtain ⟨d, hd, -⟩ := h hpos q hq
  rw [hread] at hd
  cases hd

theorem connectCacheOn_ends :
    Ends connect node b chain nHeight cache (b.connectCacheOn node chain nHeight cache) := by
  unfold CBlock.connectCacheOn
  dsimp only
  by_cases hpos : 0 < nHeight - node.cfg.nTxCacheHeight
  · rw [if_pos hpos]
    cases hq : chainAt chain (nHeight - node.cfg.nTxCacheHeight) with
    | none =>
      rw [cacheLimitBlock_of_none hq]
      exact .inl ⟨not_returnsFalse_throw _, windowReady_of_none hq⟩
    | some q =>
      rw [cacheLimitBlock_of_some hq]
      cases hread : node.readBlockFromDisk q with
      | none =>
        exact .inr ⟨returnsFalse_abort _, rfl,
          fun h => absurd h (not_windowReady_of_unread hpos hq hread)⟩
      | some d =>
        rw [Exec.ofOption]
        dsimp only
        cases hdel : (cache.addBlockToCache node.cr.Hash b).deleteBlockFromCache node.cr.Hash d with
        | none =>
          refine .inr ⟨returnsFalse_abort _, rfl, fun h => ?_⟩
          obtain ⟨d', hd', hsome⟩ := h hpos q hq
          obtain rfl := Option.some.inj (hread.symm.trans hd')
          have hthere := hsome rfl
          rw [firstWrite, hdel] at hthere
          cases hthere
        | some c =>
          refine .inl ⟨not_returnsFalse_ok _, fun _ q' hq' => ⟨d, ?_, fun _ => ?_⟩⟩
          · obtain rfl := Option.some.inj (hq.symm.trans hq')
            exact hread
          · rw [firstWrite, hdel]
            rfl
  · rw [if_neg hpos]
    exact .inl ⟨not_returnsFalse_ok _, windowReady_of_low hpos⟩

theorem disconnectCacheOn_ends :
    Ends disconnect node b chain nHeight cache (b.disconnectCacheOn node chain nHeight cache) := by
  unfold CBlock.disconnectCacheOn
  cases hdel : cache.deleteBlockFromCache node.cr.Hash b with
  | none =>
    have hfirst : firstWrite disconnect node b cache = cache := by
      rw [firstWrite, hdel]
      rfl
    exact .inr ⟨returnsFalse_abort _, hfirst.symm, fun _ => hfirst⟩
  | some c =>
    have hfirst : firstWrite disconnect node b cache = c := by
      rw [firstWrite, hdel]
      rfl
    dsimp only
    by_cases hpos : 0 < nHeight - node.cfg.nTxCacheHeight
    · rw [if_pos hpos]
      cases hq : chainAt chain (nHeight - node.cfg.nTxCacheHeight) with
      | none =>
        rw [cacheLimitBlock_of_none hq]
        exact .inl ⟨not_returnsFalse_throw _, windowReady_of_none hq⟩
      | some q =>
        rw [cacheLimitBlock_of_some hq]
        cases hread : node.readBlockFromDisk q with
        | none =>
          exact .inr ⟨returnsFalse_abort _, hfirst.symm,
            fun h => absurd h (not_windowReady_of_unread hpos hq hread)⟩
        | some d =>
          refine .inl ⟨not_returnsFalse_ok _, fun _ q' hq' => ⟨d, ?_, fun h => nomatch h⟩⟩
          obtain rfl := Option.some.inj (hq.symm.trans hq')
          exact hread
    · rw [if_neg hpos]
      exact .inl ⟨not_returnsFalse_ok _, windowReady_of_low hpos⟩

variable (call node b vs p cache files) in
/-- A call ends before the transaction cache, or as its last part does. -/
theorem run_cases : ((∀ chain nHeight, ¬ Reaches call node b vs p cache files chain nHeight) ∧
      (run call node b vs p cache files).2 = cache) ∨
    ∃ chain nHeight r, (∀ q h, Reaches call node b vs p cache files q h ↔ q = chain ∧ h = nHeight) ∧
      Ends call node b chain nHeight cache r ∧
      (Exec.ReturnsFalse (run call node b vs p cache files).1 ↔ Exec.ReturnsFalse r.1) ∧
      (run call node b vs p cache files).2 = r.2 := by
  cases call with
  | connect =>
    unfold run CBlock.connectBlockOn Reaches
    dsimp only
    cases b.connectBefore node vs p cache files with
    | error e =>
      refine .inl ⟨?_, rfl⟩
      rintro chain nHeight ⟨-, out, h⟩
      cases h
    | ok st =>
      obtain ⟨out, o⟩ := st
      cases o with
      | none =>
        refine .inl ⟨?_, rfl⟩
        rintro chain nHeight ⟨-, out, h⟩
        cases h
      | some nHeight =>
        refine .inr ⟨p, nHeight, b.connectCacheOn node p nHeight cache, fun q h => ⟨?_, ?_⟩,
          connectCacheOn_ends, ?_⟩
        · rintro ⟨rfl, out', h'⟩
          cases h'
          exact ⟨rfl, rfl⟩
        · rintro ⟨rfl, rfl⟩
          exact ⟨rfl, out, rfl⟩
        · dsimp only
          rw [returnsFalse_map]
          rcases b.connectCacheOn node p nHeight cache with ⟨x, c⟩
          cases x with
          | error e => exact ⟨returnsFalse_error.trans returnsFalse_error.symm, rfl⟩
          | ok u => exact ⟨iff_of_false (not_returnsFalse_ok _) (not_returnsFalse_ok _), rfl⟩
  | disconnect =>
    unfold run CBlock.disconnectBlockOn Reaches
    dsimp only
    cases b.disconnectBefore node vs p files with
    | error e =>
      refine .inl ⟨?_, rfl⟩
      rintro chain nHeight ⟨vs', h⟩
      cases h
    | ok st =>
      obtain ⟨vs', pPrev, nHeight⟩ := st
      refine .inr ⟨pPrev, nHeight, b.disconnectCacheOn node pPrev nHeight cache, fun q h => ⟨?_, ?_⟩,
        disconnectCacheOn_ends, ?_⟩
      · rintro ⟨vs'', h'⟩
        cases h'
        exact ⟨rfl, rfl⟩
      · rintro ⟨rfl, rfl⟩
        exact ⟨vs', rfl⟩
      · dsimp only
        rw [returnsFalse_map]
        rcases b.disconnectCacheOn node pPrev nHeight cache with ⟨x, c⟩
        cases x with
        | error e => exact ⟨returnsFalse_error.trans returnsFalse_error.symm, rfl⟩
        | ok u => exact ⟨iff_of_false (not_returnsFalse_ok _) (not_returnsFalse_ok _), rfl⟩

end

end TipCall

/-! ## The tip -/

/-- The tip's views, with all that lies below them, and its transaction cache. -/
structure ChainTip where
  accountDb : CAccountViewDB
  accounts : List AccountCache
  scriptDb : CScriptDB
  scripts : List ScriptCache
  cTxCache : CTransactionDBCache

namespace ChainTip

/-- The tip when a call has returned false: the call has used views of its own over the tip's, made
the given calls on them and dropped them, and left the given transaction cache. -/
def afterFailed (cr : Crypto) (tip : ChainTip) (accountOps : List AccountOp)
    (scriptOps : List ScriptOp) (cTxCache : CTransactionDBCache) : ChainTip where
  accountDb := tip.accountDb
  accounts := (afterOps (AccountStack.step cr tip.accountDb) (.empty :: tip.accounts) accountOps).tail
  scriptDb := tip.scriptDb
  scripts := (scriptOps.foldl (ScriptStack.step tip.scriptDb) (∅ :: tip.scripts)).tail
  cTxCache := cTxCache

/-- Both views and the transaction cache answer alike. -/
structure SameAnswers (tip tip' : ChainTip) : Prop where
  accounts : AccountStack.SameAnswers tip.accountDb tip.accounts tip'.accountDb tip'.accounts
  scripts : ∀ key, ScriptStack.data tip'.scriptDb tip'.scripts key
    = ScriptStack.data tip.scriptDb tip.scripts key
  cTxCache : tip'.cTxCache = tip.cTxCache

/-- Only the transaction cache can tell. -/
theorem afterFailed_sameAnswers_iff (cr : Crypto) (tip : ChainTip) (accountOps : List AccountOp)
    (scriptOps : List ScriptOp) (cTxCache : CTransactionDBCache) :
    tip.SameAnswers (tip.afterFailed cr accountOps scriptOps cTxCache) ↔ cTxCache = tip.cTxCache := by
  constructor
  · exact fun h => h.cTxCache
  · intro h
    obtain ⟨c, base, hrun, hsame⟩ : AccountStack.OneOver tip.accountDb tip.accounts _ :=
      AccountStack.afterOps_below .empty accountOps
    refine ⟨?_, ScriptStack.below_sameAnswers tip.scriptDb ∅ tip.scripts scriptOps, h⟩
    show AccountStack.SameAnswers tip.accountDb tip.accounts tip.accountDb
      (afterOps (AccountStack.step cr tip.accountDb) (.empty :: tip.accounts) accountOps).tail
    rw [hrun]
    exact hsame

/-- A call that returns false leaves the tip as it was, whatever it asked of its own views, exactly
when it stops before the transaction cache, or the block at the edge of the window is ready, or the
first write to the cache changes nothing. -/
theorem tip_atomic_iff (node : Node) (tip : ChainTip) (call : TipCall) (b : CBlock) (vs : Views)
    (p : PBlockIndex) (files : UndoFiles) (accountOps : List AccountOp)
    (scriptOps : List ScriptOp) :
    let r := call.run node b vs p tip.cTxCache files
    (Exec.ReturnsFalse r.1 → tip.SameAnswers (tip.afterFailed node.cr accountOps scriptOps r.2)) ↔
      ∀ chain nHeight, call.Reaches node b vs p tip.cTxCache files chain nHeight →
        call.WindowReady node b tip.cTxCache chain nHeight ∨
          call.firstWrite node b tip.cTxCache = tip.cTxCache := by
  dsimp only
  rw [afterFailed_sameAnswers_iff]
  rcases call.run_cases node b vs p tip.cTxCache files with
    ⟨hnone, hcache⟩ | ⟨chain, nHeight, r, hreach, hends, hfalse, hcache⟩
  · exact iff_of_true (fun _ => hcache) fun chain nHeight h => absurd h (hnone chain nHeight)
  · rw [hfalse, hcache]
    constructor
    · intro h q nq hq
      obtain ⟨rfl, rfl⟩ := (hreach q nq).mp hq
      rcases hends with ⟨-, hready⟩ | ⟨hret, hfirst, -⟩
      · exact .inl hready
      · exact .inr (hfirst.symm.trans (h hret))
    · intro h hret
      rcases hends with ⟨hnot, -⟩ | ⟨-, hfirst, hok⟩
      · exact absurd hret hnot
      · rw [hfirst]
        rcases h chain nHeight ((hreach chain nHeight).mpr ⟨rfl, rfl⟩) with hready | hsame
        · exact hok hready
        · exact hsame

/-! ## A tip that cannot be left again -/

/-- A block with one coinbase. -/
def sampleBlock (unHeight : UInt32) : CBlock where
  toCBlockHeader := { CBlockHeader.null with unHeight }
  vptx := [.reward ⟨2, .keyID 5, 1000000000, unHeight.toNat⟩]

/-- The entry of a block in the chain. -/
def sampleEntry (nHeight : ℕ) : CBlockIndex where
  hashBlock := if nHeight = 401 then (sampleBlock 401).getHash Sample.crypto.Hash
    else if nHeight = 501 then (sampleBlock 501).getHash Sample.crypto.Hash
    else BitVec.ofNat 256 (nHeight + 1)
  nHeight := nHeight
  nFile := 0
  nDataPos := 8
  nUndoPos := 8
  cChainWork := 0
  unTx := 1
  unChainTx := 1
  unStatus := blockHaveData ||| blockHaveUndo
  ullBlockfee := 0
  nVersion := blockVersion3
  cHashMerkleRoot := 0
  cHashPos := 0
  unTime := 0
  unBits := 0
  unNonce := 0
  llFuel := 0
  nFuelRate := 100
  vchSignature := []
  dFeePerKb := 0
  uSequenceId := 0

/-- A chain of 501 blocks after genesis, of which the block files have lost the first. -/
def sampleChain : PBlockIndex := (List.range 502).reverse.map sampleEntry

def sampleNode : Node :=
  Sample.nodeOn ⟨fun q => if q.nHeight = 401 then some (sampleBlock 401) else
    if q.nHeight = 501 then some (sampleBlock 501) else none, fun _ => none⟩ sampleChain

/-- The tip's coinbase, and the one that matured with it, left these undo records. -/
def sampleUndo : CBlockUndo :=
  [⟨0, [⟨5, 0, 500, 0⟩], []⟩, ⟨0, [⟨5, 0, 500, 0⟩], []⟩]

def sampleFiles : UndoFiles :=
  Store.put ∅ (0, 8) (some (sampleUndo.record Sample.crypto.Hash (BitVec.ofNat 256 501)))

def sampleTip : ChainTip where
  accountDb := Sample.viewOf [{ CAccount.fresh 5 with ullValues := 1000000000 }] [] 0
  accounts := []
  scriptDb := Sample.scriptsOf []
  scripts := []
  cTxCache := CTransactionDBCache.addBlockToCache .empty Sample.crypto.Hash (sampleBlock 501)

def sampleVs : Views :=
  ⟨sampleTip.accountDb.setBestBlock ((sampleBlock 501).getHash Sample.crypto.Hash), sampleTip.scriptDb⟩

/-- The tip cannot be disconnected for want of the first block, and its transactions are no longer in
the cache. -/
theorem disconnect_forgets : ¬ ∀ (node : Node) (tip : ChainTip) (call : TipCall) (b : CBlock)
    (vs : Views) (p : PBlockIndex) (files : UndoFiles) (accountOps : List AccountOp)
    (scriptOps : List ScriptOp),
    let r := call.run node b vs p tip.cTxCache files
    Exec.ReturnsFalse r.1 →
      tip.SameAnswers (tip.afterFailed node.cr accountOps scriptOps r.2) := by
  intro h
  have hsame : ∀ (node : Node) (tip : ChainTip) (call : TipCall) (b : CBlock) (vs : Views)
      (p : PBlockIndex) (files : UndoFiles),
      Exec.ReturnsFalse (call.run node b vs p tip.cTxCache files).1 →
      (call.run node b vs p tip.cTxCache files).2 = tip.cTxCache :=
    fun node tip call b vs p files hfalse =>
      (h node tip call b vs p files [] [] hfalse).cTxCache
  have hfalse : Exec.ReturnsFalse (TipCall.disconnect.run sampleNode (sampleBlock 501) sampleVs
      sampleChain sampleTip.cTxCache sampleFiles).1 := by decide +kernel
  have hgone : (TipCall.disconnect.run sampleNode (sampleBlock 501) sampleVs sampleChain
      sampleTip.cTxCache sampleFiles).2.lists Sample.crypto.Hash (sampleBlock 501) = none := by
    decide +kernel
  have hthere : sampleTip.cTxCache.lists Sample.crypto.Hash (sampleBlock 501) ≠ none := by
    decide +kernel
  rw [hsame sampleNode sampleTip .disconnect (sampleBlock 501) sampleVs sampleChain sampleFiles
    hfalse] at hgone
  exact hthere hgone

end ChainTip

end Dacrs
