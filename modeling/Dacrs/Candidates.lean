import Dacrs.AcceptBlock
import Dacrs.Lib.Ancestry

/-!
# Candidates for the best chain

`g_setBlockIndexValid` holds the entries that may become the tip.  Blocks get into it with
`AddToBlockIndex` and out of it when they or an ancestor fail; `FindMostWorkChain` looks for the best
one.  A state has the index, the status of every entry, the set and the two chains, and `Op` are the
functions that change it.
-/

open Codec (Bytes)

namespace Dacrs

open Ancestry

/-! ## The order of candidates -/

def sequenceAt (l : PBlockIndex) : UInt32 :=
  match l with
  | [] => 0
  | p :: _ => p.uSequenceId

/-- `CBlockIndexWorkComparator`; `addr` is where the entry of a hash lies in memory. -/
def workLess (addr : Uint256 ↪ ℕ) (pBlockA pBlockB : PBlockIndex) : Bool :=
  if chainWorkAt pBlockB < chainWorkAt pBlockA then false
  else if chainWorkAt pBlockA < chainWorkAt pBlockB then true
  else if sequenceAt pBlockA < sequenceAt pBlockB then false
  else if sequenceAt pBlockB < sequenceAt pBlockA then true
  else if addr pBlockA.hash < addr pBlockB.hash then false
  else decide (addr pBlockB.hash < addr pBlockA.hash)

/-! ## The state -/

structure ChainState where
  mapBlockIndex : BlockMap
  /-- `m_unStatus` of the entry with a hash -/
  unStatus : Uint256 → UInt32
  setBlockIndexValid : List PBlockIndex
  chainActive : PBlockIndex
  chainMostWork : PBlockIndex

namespace ChainState

def init : ChainState := ⟨fun _ => none, fun _ => 0, [], [], []⟩

def status (st : ChainState) (l : PBlockIndex) : UInt32 := st.unStatus l.hash

/-- `m_unStatus & BLOCK_FAILED_MASK` -/
def failed (st : ChainState) (l : PBlockIndex) : Bool := decide (st.status l &&& blockFailedMask ≠ 0)

/-- `(m_unStatus & BLOCK_VALID_MASK) >= BLOCK_VALID_TRANSACTIONS` -/
def reached (st : ChainState) (l : PBlockIndex) : Bool :=
  decide (blockValidTransactions ≤ st.status l &&& blockValidMask)

def setStatus (st : ChainState) (l : PBlockIndex) (unStatus : UInt32) : ChainState :=
  { st with unStatus := Function.update st.unStatus l.hash unStatus }

def erase (st : ChainState) (l : PBlockIndex) : ChainState :=
  { st with setBlockIndexValid := st.setBlockIndexValid.erase l }

def insert (st : ChainState) (l : PBlockIndex) : ChainState :=
  { st with setBlockIndexValid := if l ∈ st.setBlockIndexValid then st.setBlockIndexValid
    else l :: st.setBlockIndexValid }

/-- `CChain::Contains` -/
def contains (chain l : PBlockIndex) : Bool := decide (l ≠ [] ∧ l <:+ chain)

/-! ## Marking and choosing -/

/-- A failure bit is set and the entry leaves the set. -/
def markFailed (flag : UInt32) (st : ChainState) (l : PBlockIndex) : ChainState :=
  (st.setStatus l (st.status l ||| flag)).erase l

/-- `InvalidBlockFound` -/
def invalidBlockFound (st : ChainState) (pIndex : PBlockIndex) (bCorruptionPossible : Bool) :
    ChainState :=
  if bCorruptionPossible then st else markFailed blockFailedValid st pIndex

/-- The first loop of `FindMostWorkChain`, on the tip of `g_cChainMostWork`. -/
def popMostWork : ChainState → PBlockIndex → ChainState
  | st, [] => { st with chainMostWork := [] }
  | st, p :: rest =>
    if st.failed (p :: rest) then popMostWork (st.erase (p :: rest)) rest
    else { st with chainMostWork := p :: rest }

/-- The inner loop: the candidate and all entries between it and the failed one get a mark. -/
def markChildren (pTestIndex : PBlockIndex) : ChainState → PBlockIndex → ChainState
  | st, [] => st
  | st, p :: rest =>
    if p :: rest = pTestIndex then st
    else markChildren pTestIndex (markFailed blockFailedChild st (p :: rest)) rest

section
variable (addr : Uint256 ↪ ℕ)

/-- The second loop of `FindMostWorkChain`; `none` when the fuel is used up. -/
def findCandidate : ℕ → ChainState → Option (ChainState × Option PBlockIndex)
  | 0, _ => none
  | fuel + 1, st =>
    match greatest (workLess addr) st.setBlockIndexValid with
    | none => some (st, none)
    | some pNewIndex =>
      match firstMarked (contains st.chainActive) st.failed pNewIndex with
      | none => some (st, some pNewIndex)
      | some pTestIndex => findCandidate fuel (markChildren pTestIndex st pNewIndex)

/-- The end of `FindMostWorkChain`. -/
def improve (st : ChainState) (pNewIndex : Option PBlockIndex) : ChainState :=
  match pNewIndex with
  | none => st
  | some pNewIndex =>
    if st.chainMostWork ≠ [] ∧ ¬ workLess addr st.chainMostWork pNewIndex then st
    else { st with chainMostWork := pNewIndex }

/-- `FindMostWorkChain` -/
def findMostWorkChain (fuel : ℕ) (st : ChainState) : Option ChainState :=
  (findCandidate addr fuel (popMostWork st st.chainMostWork)).map fun r => r.1.improve addr r.2

end

/-! ## Connecting and disconnecting -/

/-- How `ConnectTip` ends. -/
inductive TipResult where
  /-- the tip moved; the entry's status afterwards -/
  | connected (unStatus : UInt32)
  /-- `ConnectBlock` returned false and the state is invalid -/
  | invalid (bCorruptionPossible : Bool)
  /-- any other failure; the entry's status afterwards -/
  | failed (unStatus : UInt32)

/-- `ConnectTip` -/
def connectTip (st : ChainState) (pNewIndex : PBlockIndex) (result : TipResult) : ChainState :=
  match result with
  | .connected unStatus => { st.setStatus pNewIndex unStatus with chainActive := pNewIndex }
  | .invalid bCorruptionPossible => st.invalidBlockFound pNewIndex bCorruptionPossible
  | .failed unStatus => st.setStatus pNewIndex unStatus

/-- `DisconnectTip`, when it succeeds. -/
def disconnectTip (st : ChainState) : ChainState := { st with chainActive := st.chainActive.tail }

/-! ## Side branches -/

/-- `vcPreBlocks`: the blocks of a side branch from its tip down to the active chain or to a block with a
view in `g_mapCache`. -/
def preBlocks (cached : Uint256 → Bool) (chainActive : PBlockIndex) : PBlockIndex → List PBlockIndex
  | [] => []
  | p :: rest =>
    if contains chainActive (p :: rest) ∨ cached (PBlockIndex.hash (p :: rest)) then []
    else (p :: rest) :: preBlocks cached chainActive rest

/-- The walk meets a block too far below the active tip. -/
def tooEarly (nIntervalPos : ℤ) (chainActive : PBlockIndex) : PBlockIndex → Bool
  | [] => false
  | p :: rest =>
    if contains chainActive (p :: rest) then false
    else decide (nIntervalPos < nextHeight chainActive - nextHeight rest) ||
      tooEarly nIntervalPos chainActive rest

/-- The blocks that connect one after the other; each gets a fresh status, for the test is
`m_unStatus | BLOCK_FAILED_MASK`. -/
def reconnect (connects : PBlockIndex → Bool) (st : ChainState) : List PBlockIndex → ChainState
  | [] => st
  | l :: rest =>
    if connects l then
      reconnect connects (st.setStatus l (blockValidTransactions ||| blockHaveData)) rest
    else st

/-- `CheckBlockProofWorkWithCoinDay` on a block over `pPreBlockIndex`. -/
def checkSideBranch (nIntervalPos : ℤ) (cached : Uint256 → Bool) (connects : PBlockIndex → Bool)
    (st : ChainState) (pPreBlockIndex : PBlockIndex) : ChainState :=
  if pPreBlockIndex.hash ≠ st.chainActive.hash ∧
      chainWorkAt st.chainActive < chainWorkAt pPreBlockIndex then
    if tooEarly nIntervalPos st.chainActive pPreBlockIndex then st
    else st.reconnect connects (preBlocks cached st.chainActive pPreBlockIndex).reverse
  else st

/-! ## Checkpoints -/

/-- The entries from one down to another leave the set. -/
def eraseDownTo (pEnd : PBlockIndex) : ChainState → PBlockIndex → ChainState
  | st, [] => st
  | st, p :: rest => if p :: rest = pEnd then st else eraseDownTo pEnd (st.erase (p :: rest)) rest

/-- The ancestor that is not above the height. -/
def downToHeight (nHeight : ℤ) : PBlockIndex → PBlockIndex
  | [] => []
  | p :: rest => if nHeight < p.nHeight then downToHeight nHeight rest else p :: rest

/-- The first ancestor on a chain. -/
def downToChain (chain : PBlockIndex) : PBlockIndex → PBlockIndex
  | [] => []
  | p :: rest => if contains chain (p :: rest) then p :: rest else downToChain chain rest

/-- The entry of a chain at a height. -/
def chainTo (chain : PBlockIndex) (nHeight : ℤ) : PBlockIndex :=
  if nHeight < 0 ∨ chain.length ≤ nHeight then []
  else chain.drop (chain.length - 1 - nHeight.toNat)

section
variable (addr : Uint256 ↪ ℕ)

/-- The set from its end on. -/
def candidates (st : ChainState) : List PBlockIndex :=
  st.setBlockIndexValid.insertionSort fun a b => ¬ workLess addr a b

/-- The loop without a checkpoint in the index: at the iterator's place, from the start again after
each removal. -/
def dropMismatch (nHeight : ℤ) (cHash : Uint256) : ℕ → ℕ → ChainState → Option ChainState
  | 0, _, _ => none
  | fuel + 1, it, st =>
    match (st.candidates addr)[it]? with
    | none => some st
    | some pBlock =>
      let pBlockTest := downToHeight nHeight pBlock
      if pBlockTest.hash ≠ cHash ∧ pBlock ≠ pBlockTest then
        dropMismatch nHeight cHash fuel 0 (eraseDownTo pBlockTest st pBlock)
      else dropMismatch nHeight cHash fuel (it + 1) st

/-- The end of a turn of the loop with a checkpoint: the most-work chain moves to a better block over
its tip. -/
def extendMostWork (st : ChainState) (pIndexCheck pIndexTest : PBlockIndex) : ChainState :=
  if contains st.chainMostWork pIndexCheck ∧ st.chainMostWork = pIndexCheck ∧
      chainWorkAt st.chainMostWork < chainWorkAt pIndexTest then
    { st with chainMostWork := pIndexTest }
  else st

/-- The loop with a checkpoint. -/
def dropOffCheckpoint (pcheckpoint : PBlockIndex) (nHeight : ℤ) : ℕ → ℕ → ChainState → Option ChainState
  | 0, _, _ => none
  | fuel + 1, it, st =>
    match (st.candidates addr)[it]? with
    | none => some st
    | some pIndexTest =>
      if contains st.chainMostWork pIndexTest then some st
      else if nextHeight pcheckpoint ≤ nHeight then
        if nHeight < nextHeight pIndexTest then
          dropOffCheckpoint pcheckpoint nHeight fuel 0 (st.erase pIndexTest)
        else dropOffCheckpoint pcheckpoint nHeight fuel (it + 1) st
      else
        let pIndexCheck := downToChain st.chainMostWork pIndexTest.tail
        -- following a null pointer ends the program
        if pIndexCheck = [] then none
        else if nextHeight pIndexCheck < nextHeight pcheckpoint then
          dropOffCheckpoint pcheckpoint nHeight fuel 0
            ((eraseDownTo pIndexCheck st pIndexTest).extendMostWork pIndexCheck pIndexCheck)
        else
          dropOffCheckpoint pcheckpoint nHeight fuel (it + 1) (st.extendMostWork pIndexCheck pIndexTest)

/-- The active chain is disconnected down to the most-work chain; `false` when that fails. -/
def disconnectDown (disconnects : PBlockIndex → Bool) (st : ChainState) :
    PBlockIndex → ChainState × Bool
  | [] => ({ st with chainActive := [] }, true)
  | p :: rest =>
    if contains st.chainMostWork (p :: rest) then ({ st with chainActive := p :: rest }, true)
    else if disconnects (p :: rest) then disconnectDown disconnects st rest
    else ({ st with chainActive := p :: rest }, false)

/-- The most-work chain is connected; there are at most `turns` blocks of it. -/
def connectUp (connect : PBlockIndex → TipResult) : ℕ → ChainState → ChainState
  | 0, st => st
  | turns + 1, st =>
    match chainTo st.chainMostWork st.chainActive.length with
    | [] => st
    | p :: rest =>
      match connect (p :: rest) with
      | .connected unStatus =>
        connectUp connect turns ((st.connectTip (p :: rest) (.connected unStatus)).insert (p :: rest))
      | result => st.connectTip (p :: rest) result

def followMostWork (connect : PBlockIndex → TipResult) (disconnects : PBlockIndex → Bool)
    (st : ChainState) : ChainState :=
  if st.chainMostWork = [] then st
  else
    match disconnectDown disconnects st st.chainActive with
    | (st, false) => st
    | (st, true) => connectUp connect st.chainMostWork.length st

/-- Enough turns for a loop that starts again after each removal. -/
def loopFuel (st : ChainState) : ℕ :=
  (st.setBlockIndexValid.length + 1) * (st.setBlockIndexValid.length + 2)

/-- `CheckActiveChain`; `pcheckpoint` is what `GetLastCheckpoint` finds. -/
def checkActiveChain (nHeight : ℤ) (cHash : Uint256) (pcheckpoint : PBlockIndex)
    (connect : PBlockIndex → TipResult) (disconnects : PBlockIndex → Bool) (st : ChainState) :
    Option ChainState :=
  if nHeight < 1 then some st
  else if chainTo st.chainActive nHeight ≠ [] ∧ (chainTo st.chainActive nHeight).hash = cHash then some st
  else if pcheckpoint ≠ [] then
    if chainTo st.chainActive nHeight = [] ∧ contains st.chainActive pcheckpoint then some st
    else
      (dropOffCheckpoint addr pcheckpoint nHeight st.loopFuel 0 { st with chainMostWork := pcheckpoint }).map
        (followMostWork connect disconnects)
  else if chainTo st.chainActive nHeight = [] then some st
  else
    (dropMismatch addr nHeight cHash st.loopFuel 0 st).map fun st =>
      followMostWork connect disconnects
        { st with chainMostWork := chainTo st.chainActive (nHeight - 1) }

end

/-! ## Steps -/

/-- The new entry is in the index and in the set. -/
def addEntry (st : ChainState) (l : PBlockIndex) : ChainState :=
  ({ st with
    mapBlockIndex := fun h => if h = l.hash then some l else st.mapBlockIndex h
    unStatus := Function.update st.unStatus l.hash (blockValidTransactions ||| blockHaveData) } :
    ChainState).insert l

/-- The functions that change the candidates, with what they are called on. -/
inductive Op where
  | addToBlockIndex (env : AcceptEnv) (b : CBlock) (tDiskBlockPos : DiskBlockPos)
  | checkSideBranch (pPreBlockIndex : PBlockIndex) (cached : Uint256 → Bool)
      (connects : PBlockIndex → Bool)
  | invalidBlockFound (pIndex : PBlockIndex) (bCorruptionPossible : Bool)
  | findMostWorkChain
  | connectTip (pNewIndex : PBlockIndex) (result : TipResult)
  | disconnectTip (success : Bool)
  | checkActiveChain (nHeight : ℤ) (cHash : Uint256) (pcheckpoint : PBlockIndex)
      (connect : PBlockIndex → TipResult) (disconnects : PBlockIndex → Bool)

section
variable (cfg : SysCfg) (cr : Crypto) (addr : Uint256 ↪ ℕ)

/-- One step; `none` when it does not come back. -/
def apply (st : ChainState) : Op → Option ChainState
  | .addToBlockIndex env b tDiskBlockPos =>
    match Dacrs.addToBlockIndex cr env st.mapBlockIndex b tDiskBlockPos with
    | .ok l => some (st.addEntry l)
    | .error _ => some st
  | .checkSideBranch pPreBlockIndex cached connects =>
    some (st.checkSideBranch cfg.nIntervalPos cached connects pPreBlockIndex)
  | .invalidBlockFound pIndex bCorruptionPossible => some (st.invalidBlockFound pIndex bCorruptionPossible)
  | .findMostWorkChain => st.findMostWorkChain addr (st.setBlockIndexValid.length + 1)
  | .connectTip pNewIndex result => some (st.connectTip pNewIndex result)
  | .disconnectTip success => some (if success then st.disconnectTip else st)
  | .checkActiveChain nHeight cHash pcheckpoint connect disconnects =>
    st.checkActiveChain addr nHeight cHash pcheckpoint connect disconnects

end

end ChainState

end Dacrs
